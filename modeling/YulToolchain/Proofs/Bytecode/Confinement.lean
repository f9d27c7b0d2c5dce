import YulToolchain.Proofs.Bytecode.Pieces
import YulToolchain.Proofs.Execution.Operation

/-!
# Own Code Is Not Left

Code of a program executes nothing but itself until it comes to its own end.

What stands behind the code of an object is data as far as the object is concerned, but
the machine would execute it like any other code. So control must not get there. Within
the code it goes from piece to piece, and leaves it by jumps alone: those to labels are to
labels of the code, and those of functions are back to where they were called. In the end
it comes to the end of the code, with nothing on the stack.

Since code may run forever, this is said for a number of steps, and what a piece of code
does is safe if what follows is. The number gets smaller with every step. That is what
rounds of loops and calls are by induction on.

## Main definitions

* `Bytecode.Confined`: Nothing behind a position is executed before control comes there
  with nothing on the stack, and the machine does not get stuck.
* `Bytecode.Safe`: The same for a number of steps.
* `Bytecode.SafeAt`: A position is safe with every frame of a height.
* `Block.Contained`, `Stmt.Contained`: Code is safe if what follows is.

## Theorems

* `Stmt.Contained.switch`, `Stmt.Contained.loop` and so on: One for each kind of statement, from
  what is known of its parts.
* `Expr.Coded.safe`, `Stmt.Coded.safeAt`: Code is safe if what follows is.
* `Block.Coded.confined`: Code of a program is not left.
-/

namespace YulToolchain

namespace Bytecode

/-- From a configuration on, the machine executes nothing at or behind a position and goes
    on until it ends the program, unless it comes to just that position with nothing on the
    stack. -/
def Confined (limits : Limits) (code : List UInt8) (size : Nat) (c : Config) : Prop :=
  ∀ c', Walks limits code size c c' → (c'.pc = size ∧ c'.stack = []) ∨ (c'.pc < size ∧
    ((∃ next, step limits code c' = .on next) ∨
      ∃ why state, step limits code c' = .halted why state))

/-- A configuration is confined for a number of steps. -/
def Safe (limits : Limits) (code : List UInt8) (size : Nat) : Nat → Config → Prop
  | 0, _ => True
  | n + 1, c => (c.pc = size ∧ c.stack = []) ∨ (c.pc < size ∧ match step limits code c with
    | .on c => Safe limits code size n c
    | .halted _ _ => True
    | .off => False
    | .stuck => False)

/-- A position is safe with every frame of a height on top of some words. -/
def SafeAt (limits : Limits) (code : List UInt8) (size n position height : Nat)
    (below : List Word) : Prop :=
  ∀ row state, row.length = height → Safe limits code size n ⟨position, row ++ below, state⟩

section Indices

variable {limits : Limits} {code : List UInt8} {size n : Nat} {c c' : Config}

/-- What is safe for a step more is safe. -/
theorem Safe.mono : ∀ {n : Nat} {c : Config}, Safe limits code size (n + 1) c →
    Safe limits code size n c
  | 0, _, _ => trivial
  | n + 1, c, h => by
      rcases h with hend | ⟨hpc, hnext⟩
      · exact Or.inl hend
      · refine Or.inr ⟨hpc, ?_⟩
        split at hnext
        · exact hnext.mono
        · trivial
        · exact hnext
        · exact hnext

/-- Safety for more steps is safety for fewer. -/
theorem Safe.le {m : Nat} (hle : m ≤ n) (h : Safe limits code size n c) :
    Safe limits code size m c := by
  induction hle with
  | refl => exact h
  | step _ ih => exact ih h.mono

/-- A step uses up one of the number. -/
theorem Safe.next (hpc : c.pc < size) (hstep : step limits code c = .on c')
    (h : Safe limits code size n c') : Safe limits code size (n + 1) c := by
  refine Or.inr ⟨hpc, ?_⟩
  rw [hstep]
  exact h

/-- What walks to a safe configuration is safe. -/
theorem Safe.walk (h : Walks limits code size c c') (hsafe : Safe limits code size n c') :
    Safe limits code size n c := by
  induction h with
  | refl _ => exact hsafe
  | step hpc hstep _ ih => exact (Safe.next hpc hstep (ih hsafe)).mono

/-- What is safe for every number of steps is confined. -/
theorem Confined.of_safe (h : ∀ n, Safe limits code size n c) : Confined limits code size c := by
  -- Along the walk, safety for any number of steps is passed on to the next configuration.
  intro c' hwalk
  induction hwalk with
  | refl c =>
      rcases h 1 with hend | ⟨hpc, hnext⟩
      · exact Or.inl hend
      -- The first step tells how the run goes on.
      · refine Or.inr ⟨hpc, ?_⟩
        split at hnext
        · rename_i c' hstep
          exact Or.inl ⟨c', hstep⟩
        · rename_i why state hstep
          exact Or.inr ⟨why, state, hstep⟩
        · exact hnext.elim
        · exact hnext.elim
  | step hpc hstep _ ih =>
      refine ih fun n => ?_
      rcases h (n + 1) with hend | ⟨_, hnext⟩
      -- At the end no step is taken.
      · exact absurd hpc (by rw [hend.1]; exact Nat.lt_irrefl size)
      · rw [hstep] at hnext
        exact hnext

theorem SafeAt.le {m position height : Nat} {below : List Word} (hle : m ≤ n)
    (h : SafeAt limits code size n position height below) :
    SafeAt limits code size m position height below :=
  fun row state hrow => (h row state hrow).le hle

end Indices

/-- Calls of functions that are placed are safe for a number of steps: they return to where
    they are told to, with as many values as they have return variables. -/
def SafeCalls (limits : Limits) (d : Dialect) (items : List Item) (code : List UInt8) (n : Nat) :
    Prop :=
  ∀ (t : EntryTable) (f : FunctionDef) (entry first last : Nat) (piece : List Item),
    t.Placed d items → f.Coded d t entry piece → Item.Span items first piece last →
    ∀ (args : List Word) (ret : Word) (back : Nat) (stack : List Word),
      args.length = f.params.length → Points code ret back →
      (∀ values state, values.length = f.returns.length →
        Safe limits code (Item.sizeAll items) n ⟨back, values ++ stack, state⟩) →
      ∀ state, Safe limits code (Item.sizeAll items) n ⟨first, args ++ ret :: stack, state⟩

/-- The labels of the loop around a place are safe. -/
def SafeLoop (limits : Limits) (items : List Item) (code : List UInt8) (n : Nat) (k : Site)
    (below : List Word) : Prop :=
  ∀ l, k.loop = some l → ∀ position,
    (Item.label l.exit).StandsAt items position ∨ (Item.label l.next).StandsAt items position →
      SafeAt limits code (Item.sizeAll items) n position l.height below

end Bytecode

open Bytecode

section Expressions

variable {limits : Limits} {d : Dialect} {items : List Item} {code : List UInt8}

/-- An instruction leaves as many values as it returns, or ends the program. -/
theorem Bytecode.Loaded.safe_operate (hl : Loaded items code) {op : Instruction} {first n : Nat}
    (h : (Item.instruction op).StandsAt items first) (hop : op.isStackManipulation = false)
    {args stack : List Word} (hargs : args.length = op.args)
    (hnext : ∀ values state, values.length = op.returns → Safe limits code (Item.sizeAll items) n
      ⟨first + (Item.instruction op).size, values ++ stack, state⟩) (state : MachineState) :
    Safe limits code (Item.sizeAll items) n ⟨first, args ++ stack, state⟩ := by
  by_cases hpc : op = .pc
  · -- The position itself is the value.
    subst hpc
    obtain rfl := List.length_eq_zero_iff.mp hargs
    refine (Safe.next h.lt_sizeAll ?_ (hnext [BitVec.ofNat 256 first] state rfl)).mono
    rw [step_of_fetch (hl.instruction first _ h).1]
    rfl
  · have hperforms := op.execute_performs limits hop hargs state
    refine Safe.mono (Or.inr ⟨h.lt_sizeAll, ?_⟩)
    -- Any other instruction does what the interpreter does.
    rw [hl.step_operate h hop hpc hargs]
    cases hr : op.execute limits args state with
    | ok value state' =>
        rw [hr] at hperforms
        exact hnext _ state' hperforms.ends
    -- A halt is safe.
    | error why state' => trivial

/-- An instruction is safe behind its arguments if what follows is. -/
theorem Instruction.CodedWith.safe (hl : Loaded items code) {op : Instruction} {args count : Nat}
    {inner piece : List Item} {first last n : Nat} {stack : List Word}
    (h : op.CodedWith args count inner piece) (hspan : Item.Span items first piece last)
    (hnext : ∀ values state, values.length = count →
      Safe limits code (Item.sizeAll items) n ⟨last, values ++ stack, state⟩) :
    ∃ middle, Item.Span items first inner middle ∧ ∀ values state, values.length = args →
      Safe limits code (Item.sizeAll items) n ⟨middle, values ++ stack, state⟩ := by
  rcases h with ⟨hop, rfl, rfl, rfl⟩
  rcases hspan.append with ⟨middle, hfirst, hlast⟩
  rcases hlast.cons with ⟨hhere, hend⟩
  rw [hend.nil] at hnext
  exact ⟨middle, hfirst, fun values state hvalues => hl.safe_operate hhere hop hvalues hnext state⟩

/-- An item that pushes a word of its own. -/
theorem Bytecode.Loaded.safe_pushes (hl : Loaded items code) {i : Item} (hi : i.Pushes)
    {first last n : Nat} {stack : List Word} (hspan : Item.Span items first [i] last)
    (hnext : ∀ values state, values.length = 1 →
      Safe limits code (Item.sizeAll items) n ⟨last, values ++ stack, state⟩)
    (state : MachineState) :
    Safe limits code (Item.sizeAll items) n ⟨first, stack, state⟩ := by
  rcases hspan.cons with ⟨hhere, hend⟩
  rw [hend.nil] at hnext
  cases i with
  | constant w => exact (hnext [w] state rfl).walk (.one hhere.lt_sizeAll (hl.step_constant hhere))
  | reference r =>
      rcases hl.step_pushes hhere limits stack state with ⟨w, hstep⟩
      exact (hnext [w] state rfl).walk (.one hhere.lt_sizeAll hstep)
  | _ => exact hi.elim

mutual

/-- Code of an expression is safe if what follows is with its values on the stack. -/
theorem Expr.Coded.safe (hl : Loaded items code) : ∀ (e : Expr) {n : Nat} {k : Site} {count : Nat}
    {piece : List Item} {first last : Nat} {stack : List Word},
      (∀ m < n, SafeCalls limits d items code m) → e.Coded d k count piece →
      Item.Span items first piece last → k.functions.Placed d items → k.height ≤ stack.length →
      (∀ values state, values.length = count →
        Safe limits code (Item.sizeAll items) n ⟨last, values ++ stack, state⟩) →
      ∀ state, Safe limits code (Item.sizeAll items) n ⟨first, stack, state⟩
  -- By recursion on the expression. The continuation is safe behind the piece of code.
  | .literal l, n, k, count, piece, first, last, stack, _, h, hspan, _, _, hnext, state => by
      rw [Expr.Coded] at h
      rcases h with ⟨w, _, rfl, rfl⟩
      rcases hspan.cons with ⟨hhere, hend⟩
      rw [hend.nil] at hnext
      exact (hnext [w] state rfl).walk (.one hhere.lt_sizeAll (hl.step_constant hhere))
  | .ident line x, n, k, count, piece, first, last, stack, _, h, hspan, _, hheight, hnext,
      state => by
      rw [Expr.Coded] at h
      rcases h with ⟨slot, depth, _, hdepth, rfl, rfl⟩
      rcases hspan.cons with ⟨hhere, hend⟩
      rw [hend.nil] at hnext
      -- The stack is as high as the site says, so the slot is there.
      obtain ⟨w, hw⟩ : ∃ w, stack[depth.val]? = some w :=
        ⟨_, List.getElem?_eq_getElem (by omega)⟩
      exact (hnext [w] state rfl).walk (.one hhere.lt_sizeAll (hl.step_dup hhere hw))
  | .instr line op args, n, k, count, piece, first, last, stack, hcalls, h, hspan, hplaced, hheight,
      hnext, state => by
      rw [Expr.Coded] at h
      rcases h with ⟨inner, hinner, hop⟩
      -- First the arguments, then the instruction on their values.
      rcases hop.safe hl hspan hnext with ⟨middle, hfirst, hnext⟩
      exact Expr.CodedArgs.safe hl args hcalls hinner hfirst hplaced hheight hnext state
  | .call line name args, n, k, count, piece, first, last, stack, hcalls, h, hspan, hplaced,
      hheight, hnext, state => by
      rw [Expr.Coded] at h
      split at h
      · split at h
        · rcases h with ⟨inner, hinner, hop⟩
          rcases hop.safe hl hspan hnext with ⟨middle, hfirst, hnext⟩
          exact Expr.CodedArgs.safe hl args hcalls hinner hfirst hplaced hheight hnext state
        · rcases h with ⟨rfl, i, hi, rfl⟩
          exact hl.safe_pushes hi hspan hnext state
        · rcases h with ⟨rfl, i, hi, rfl⟩
          exact hl.safe_pushes hi hspan hnext state
        · rcases h with ⟨inner, hinner, hop⟩
          rcases hop.safe hl hspan hnext with ⟨middle, hfirst, hnext⟩
          exact Expr.CodedArgs.safe hl args hcalls hinner hfirst hplaced hheight hnext state
        · -- Nothing but the effect on the stack.
          rcases h with ⟨rfl, h⟩
          split at h
          · subst h
            exact (hnext _ state List.length_replicate).walk (hl.walk_zeros hspan)
          · rcases h with ⟨inner, hinner, rfl⟩
            rcases hspan.append with ⟨_, hspan, hzeros⟩
            rcases hspan.append with ⟨_, hfirst, hpops⟩
            refine Expr.CodedArgs.safe hl args hcalls hinner hfirst hplaced hheight
              (fun values state hvalues => ?_) state
            rw [← hvalues] at hpops
            exact (hnext _ state List.length_replicate).walk
              ((hl.walk_pops values hpops).trans (hl.walk_zeros hzeros))
      · -- A function of the program.
        rcases h with ⟨f, entry, back, inner, hf, hargs, rfl, hinner, rfl⟩
        rcases hspan.cons with ⟨href, hspan⟩
        rcases hspan.append with ⟨position, hspan, hback⟩
        rcases hspan.append with ⟨_, hfirst, hgoTo⟩
        rcases hback.cons with ⟨hlabel, hend⟩
        rw [hend.nil] at hnext
        -- The function stands in the code with its entry.
        rcases EntryTable.find?_split hf with ⟨outside, here, outer, htable, hmem, -⟩
        have hplaced' : EntryTable.Placed d items (here :: outer) := by
          rw [htable] at hplaced
          exact hplaced.suffix
        rcases hplaced'.1 _ hmem with ⟨start, body, last', hbody, hbodyspan⟩
        have hentry := hbody.stands hbodyspan
        rcases hl.step_reference href hlabel limits stack state with ⟨ret, hret, hstep⟩
        -- Calling takes a step, so the called function needs to be safe for fewer steps only.
        cases n with
        | zero => trivial
        | succ n =>
            refine Safe.next href.lt_sizeAll hstep ?_
            refine Expr.CodedArgs.safe hl args (fun m hm => hcalls m (Nat.lt_succ_of_lt hm)) hinner
              hfirst hplaced ?_ (fun values state hvalues => ?_) state
            · rw [List.length_cons, Site.push]
              exact Nat.succ_le_succ hheight
            -- Behind the call the results are on the stack and the label is passed.
            · refine Safe.walk (hl.walk_goTo hgoTo hentry) ?_
              refine hcalls n (Nat.lt_succ_self n) _ f entry start last' body hplaced' hbody
                hbodyspan values ret position stack (hvalues.trans hargs) hret
                (fun results state hresults => ?_) state
              exact (hnext results state hresults).mono.walk
                (.one hlabel.lt_sizeAll (hl.step_label hlabel))

/-- The arguments are safe one after the other, the last one first. -/
theorem Expr.CodedArgs.safe (hl : Loaded items code) : ∀ (args : List Expr) {n : Nat} {k : Site}
    {piece : List Item} {first last : Nat} {stack : List Word},
      (∀ m < n, SafeCalls limits d items code m) → Expr.CodedArgs d k args piece →
      Item.Span items first piece last → k.functions.Placed d items → k.height ≤ stack.length →
      (∀ values state, values.length = args.length →
        Safe limits code (Item.sizeAll items) n ⟨last, values ++ stack, state⟩) →
      ∀ state, Safe limits code (Item.sizeAll items) n ⟨first, stack, state⟩
  | [], n, k, piece, first, last, stack, _, h, hspan, _, _, hnext, state => by
      rw [Expr.CodedArgs] at h
      subst h
      rw [hspan.nil] at hnext
      exact hnext [] state rfl
  | e :: rest, n, k, piece, first, last, stack, hcalls, h, hspan, hplaced, hheight, hnext,
      state => by
      rw [Expr.CodedArgs] at h
      rcases h with ⟨later, here, hlater, hhere, rfl⟩
      rcases hspan.append with ⟨middle, hfirst, hlast⟩
      -- The later arguments have left their values.
      refine Expr.CodedArgs.safe hl rest hcalls hlater hfirst hplaced hheight
        (fun values state hvalues => ?_) state
      refine Expr.Coded.safe hl e hcalls hhere hlast hplaced ?_ (fun ones state hones => ?_) state
      · rw [List.length_append, hvalues, Nat.add_comm]
        exact Nat.add_le_add_right hheight _
      · rw [← List.append_assoc]
        refine hnext _ state ?_
        rw [List.length_append, hones, hvalues, List.length_cons, Nat.add_comm]

end

end Expressions

section Frames

variable {limits : Limits} {d : Dialect} {items : List Item} {code : List UInt8}
  {n first last height : Nat} {below : List Word}

/-- A label is passed. -/
theorem Bytecode.SafeAt.label (hl : Loaded items code) {id : Nat}
    (h : (Item.label id).StandsAt items first)
    (hnext : SafeAt limits code (Item.sizeAll items) n (first + (Item.label id).size) height
      below) :
    SafeAt limits code (Item.sizeAll items) n first height below :=
  fun row state hrow => (hnext row state hrow).walk (.one h.lt_sizeAll (hl.step_label h))

/-- Pops take away as many words as there are. -/
theorem Bytecode.SafeAt.pops (hl : Loaded items code) {count : Nat}
    (h : Item.Span items first (Item.pops count) last)
    (hnext : SafeAt limits code (Item.sizeAll items) n last height below) :
    SafeAt limits code (Item.sizeAll items) n first (height + count) below := by
  intro row state hrow
  have htop : (row.take count).length = count := by
    rw [List.length_take]
    omega
  have hrest : (row.drop count).length = height := by
    rw [List.length_drop]
    omega
  rw [← htop] at h
  rw [← List.take_append_drop count row, List.append_assoc]
  exact (hnext _ state hrest).walk (hl.walk_pops _ h)

/-- A jump goes on at the label. -/
theorem Bytecode.SafeAt.goTo (hl : Loaded items code) {id position : Nat}
    (h : Item.Span items first (Item.goTo id) last)
    (hlabel : (Item.label id).StandsAt items position)
    (hnext : SafeAt limits code (Item.sizeAll items) n position height below) :
    SafeAt limits code (Item.sizeAll items) n first height below :=
  fun row state hrow => (hnext row state hrow).walk (hl.walk_goTo h hlabel)

/-- A conditional jump goes on at one of two places. -/
theorem Bytecode.SafeAt.goToUnless (hl : Loaded items code) {id position : Nat}
    (h : Item.Span items first (Item.goToUnless id) last)
    (hlabel : (Item.label id).StandsAt items position)
    (hjump : SafeAt limits code (Item.sizeAll items) n position height below)
    (hnext : SafeAt limits code (Item.sizeAll items) n last height below) :
    SafeAt limits code (Item.sizeAll items) n first (height + 1) below := by
  intro row state hrow
  rcases row with _ | ⟨test, row⟩
  · exact absurd hrow (by simp only [List.length_nil]; omega)
  · have hrow := Nat.succ.inj hrow
    refine Safe.walk (hl.walk_goToUnless h hlabel) ?_
    split
    · exact hjump row state hrow
    · exact hnext row state hrow

/-- A comparison keeps the word, and goes on at one of two places. -/
theorem Bytecode.SafeAt.goToCase (hl : Loaded items code) {id position : Nat} {w : Word}
    (h : Item.Span items first
      (.constant w :: .instruction (.dup 1) :: .instruction .eq :: Item.goToIf id) last)
    (hlabel : (Item.label id).StandsAt items position)
    (hjump : SafeAt limits code (Item.sizeAll items) n position (height + 1) below)
    (hnext : SafeAt limits code (Item.sizeAll items) n last (height + 1) below) :
    SafeAt limits code (Item.sizeAll items) n first (height + 1) below := by
  intro row state hrow
  rcases row with _ | ⟨subject, row⟩
  · exact absurd hrow (by simp only [List.length_nil]; omega)
  · refine Safe.walk (hl.walk_goToCase h hlabel) ?_
    split
    · exact hjump (subject :: row) state hrow
    · exact hnext (subject :: row) state hrow

theorem Bytecode.SafeLoop.le {m : Nat} {k : Site} (hle : m ≤ n)
    (h : SafeLoop limits items code n k below) : SafeLoop limits items code m k below :=
  fun l hl position hposition => (h l hl position hposition).le hle

/-- Code of an expression puts its values on top of a frame. -/
theorem Expr.Coded.safeAt (hl : Loaded items code) {e : Expr} {k : Site} {count : Nat}
    {piece : List Item} (hcalls : ∀ m < n, SafeCalls limits d items code m)
    (h : e.Coded d k count piece) (hspan : Item.Span items first piece last)
    (hplaced : k.functions.Placed d items)
    (hnext : SafeAt limits code (Item.sizeAll items) n last (k.height + count) below) :
    SafeAt limits code (Item.sizeAll items) n first k.height below := by
  intro row state hrow
  refine Expr.Coded.safe hl e hcalls h hspan hplaced ?_ (fun values state hvalues => ?_) state
  · rw [List.length_append]
    omega
  · rw [← List.append_assoc]
    refine hnext _ state ?_
    rw [List.length_append, hvalues, hrow, Nat.add_comm]

/-- Assigning takes the values off the stack, one target after the other. -/
theorem Site.CodedAssign.safeAt (hl : Loaded items code) : ∀ {targets : List Identifier} {k : Site}
    {piece : List Item} {first last : Nat}, k.CodedAssign targets piece →
      Item.Span items first piece last →
      SafeAt limits code (Item.sizeAll items) n last k.height below →
      SafeAt limits code (Item.sizeAll items) n first (k.height + targets.length) below
  | [], k, piece, first, last, h, hspan, hnext => by
      subst h
      rw [hspan.nil] at hnext
      exact hnext
  | x :: rest, k, piece, first, last, h, hspan, hnext => by
      rcases h with ⟨later, slot, depth, hlater, _, hdepth, rfl⟩
      rcases hspan.append with ⟨middle, hfirst, hlast⟩
      rcases hlast.cons with ⟨hswap, hlast⟩
      rcases hlast.cons with ⟨hpop, hend⟩
      rw [hend.nil] at hnext
      -- The swap and the pop for one target leave the row as long as it was.
      have hmiddle : SafeAt limits code (Item.sizeAll items) n middle (k.push 1).height below := by
        intro row state hrow
        rcases row with _ | ⟨top, row⟩
        · exact absurd hrow (by simp only [List.length_nil, Site.push]; omega)
        · have hrow : row.length = k.height := Nat.succ.inj hrow
          obtain ⟨w, hw⟩ : ∃ w, (row ++ below)[depth.val]? = some w :=
            ⟨_, List.getElem?_eq_getElem (by rw [List.length_append]; omega)⟩
          rw [List.cons_append]
          refine Safe.walk (.step hswap.lt_sizeAll (hl.step_swap hswap hw)
            (.one hpop.lt_sizeAll (hl.step_pop hpop))) ?_
          rw [List.set_append_left _ _ (by omega)]
          exact hnext _ state (by rw [List.length_set, hrow])
      have hall := hlater.safeAt hl hfirst hmiddle
      rwa [Site.push, Nat.add_assoc, Nat.add_comm 1] at hall

/-- Leaving the body drops the variables and goes on at the target. -/
theorem Site.CodedLeave.safeAt (hl : Loaded items code) {k : Site} {goal : LoopSite → Nat}
    {piece : List Item} (h : k.CodedLeave goal piece) (hspan : Item.Span items first piece last)
    (hnext : ∀ l, k.loop = some l → ∀ position, (Item.label (goal l)).StandsAt items position →
      SafeAt limits code (Item.sizeAll items) n position l.height below) :
    SafeAt limits code (Item.sizeAll items) n first k.height below := by
  rcases h with ⟨l, hloop, hle, rfl⟩
  rcases hspan.append with ⟨middle, hpops, hgoTo⟩
  rcases hl.exists_label (Item.Span.cons hgoTo).1 with ⟨position, hlabel⟩
  have hall := ((hnext l hloop position hlabel).goTo hl hgoTo hlabel).pops hl hpops
  rwa [Nat.add_sub_of_le hle] at hall

end Frames

section Statements

variable {limits : Limits} {d : Dialect} {items : List Item} {code : List UInt8}

/-- Code of a block is safe if what follows is, and the labels of the loop around it. -/
def Block.Contained (limits : Limits) (d : Dialect) (items : List Item) (code : List UInt8)
    (b : Block) : Prop :=
  ∀ ⦃n : Nat⦄ ⦃k : Site⦄ ⦃piece : List Item⦄ ⦃first last : Nat⦄ ⦃below : List Word⦄,
    (∀ m < n, SafeCalls limits d items code m) → b.Coded d k piece →
    Item.Span items first piece last → k.functions.Placed d items →
    SafeLoop limits items code n k below →
    SafeAt limits code (Item.sizeAll items) n last k.height below →
    SafeAt limits code (Item.sizeAll items) n first k.height below

/-- So is code of statements. -/
def Stmt.ContainedSeq (limits : Limits) (d : Dialect) (items : List Item) (code : List UInt8)
    (stmts : List Stmt) : Prop :=
  ∀ ⦃n : Nat⦄ ⦃k : Site⦄ ⦃piece : List Item⦄ ⦃first last : Nat⦄ ⦃below : List Word⦄,
    (∀ m < n, SafeCalls limits d items code m) → Stmt.CodedSeq d k stmts piece →
    Item.Span items first piece last → k.functions.Placed d items →
    SafeLoop limits items code n k below →
    SafeAt limits code (Item.sizeAll items) n last (k.afterSeq stmts).height below →
    SafeAt limits code (Item.sizeAll items) n first k.height below

/-- So is code of a statement. -/
def Stmt.Contained (limits : Limits) (d : Dialect) (items : List Item) (code : List UInt8)
    (s : Stmt) : Prop :=
  ∀ ⦃n : Nat⦄ ⦃k : Site⦄ ⦃piece : List Item⦄ ⦃first last : Nat⦄ ⦃below : List Word⦄,
    (∀ m < n, SafeCalls limits d items code m) → s.Coded d k piece →
    Item.Span items first piece last → k.functions.Placed d items →
    SafeLoop limits items code n k below →
    SafeAt limits code (Item.sizeAll items) n last (k.after s).height below →
    SafeAt limits code (Item.sizeAll items) n first k.height below

/-- The comparisons of a switch are safe if its end is: each goes on with the next one or
    with the body of its case, which goes on at the end. -/
def Case.Contained (limits : Limits) (d : Dialect) (items : List Item) (code : List UInt8)
    (cases : List Case) : Prop :=
  ∀ ⦃n : Nat⦄ ⦃k : Site⦄ ⦃ids : List Nat⦄ ⦃tests bodies : List Item⦄
    ⦃after first last first' last' : Nat⦄ ⦃below : List Word⦄,
    (∀ m < n, SafeCalls limits d items code m) → Case.CodedTests d (k.push 1) cases ids tests →
    Item.Span items first tests last → Case.CodedBodies d (k.push 1) after ids cases bodies →
    Item.Span items first' bodies last' → k.functions.Placed d items →
    SafeLoop limits items code n k below → (Item.label after).StandsAt items last' →
    SafeAt limits code (Item.sizeAll items) n last' (k.height + 1) below →
    SafeAt limits code (Item.sizeAll items) n last (k.height + 1) below →
    SafeAt limits code (Item.sizeAll items) n first (k.height + 1) below

/-- A block is contained if its statements are. -/
theorem Block.Contained.of_stmts (hl : Loaded items code) {line : Nat} {stmts : List Stmt}
    (hparts : Stmt.ContainedSeq limits d items code stmts) :
    Block.Contained limits d items code ⟨line, stmts⟩ := by
  intro n k piece first last below hcalls h hspan hplaced hloop hnext
  rw [Block.Coded] at h
  rcases h with ⟨entry, inner, hinner, rfl⟩
  rcases hspan.append with ⟨middle, hfirst, hpops⟩
  have hstmts : SafeAt limits code (Item.sizeAll items) n first (k.enter stmts entry).height
      below := by
    refine hparts hcalls hinner hfirst (hplaced.enter hinner hfirst) hloop ?_
    rw [Site.height_afterSeq]
    exact hnext.pops hl hpops
  exact hstmts

namespace Stmt.ContainedSeq

/-- No statements, no steps. -/
theorem nil : Stmt.ContainedSeq limits d items code [] := by
  intro n k piece first last below _ h hspan _ _ hnext
  rw [Stmt.CodedSeq] at h
  subst h
  rw [hspan.nil] at hnext
  exact hnext

/-- The first statement, then the rest. -/
theorem cons {s : Stmt} {rest : List Stmt} (hone : s.Contained limits d items code)
    (hmore : Stmt.ContainedSeq limits d items code rest) :
    Stmt.ContainedSeq limits d items code (s :: rest) := by
  intro n k piece first last below hcalls h hspan hplaced hloop hnext
  rw [Stmt.CodedSeq] at h
  rcases h with ⟨here, later, hhere, hlater, rfl⟩
  rcases hspan.append with ⟨middle, hfirst, hlast⟩
  exact hone hcalls hhere hfirst hplaced hloop (hmore hcalls hlater hlast hplaced hloop hnext)

end Stmt.ContainedSeq

namespace Stmt.Contained

/-- An expression that is a statement leaves nothing on the stack. -/
theorem expr (hl : Loaded items code) {line : Nat} {e : Expr} :
    (Stmt.expr line e).Contained limits d items code := by
  intro n k piece first last below hcalls h hspan hplaced _ hnext
  rw [Stmt.Coded] at h
  exact Expr.Coded.safeAt hl hcalls h hspan hplaced hnext

/-- An assignment evaluates its value and stores it. -/
theorem assign (hl : Loaded items code) {line : Nat} {targets : List Identifier} {value : Expr} :
    (Stmt.assign line targets value).Contained limits d items code := by
  intro n k piece first last below hcalls h hspan hplaced _ hnext
  rw [Stmt.Coded] at h
  rcases h with ⟨inner, moves, hinner, hmoves, rfl⟩
  rcases hspan.append with ⟨middle, hfirst, hlast⟩
  exact Expr.Coded.safeAt hl hcalls hinner hfirst hplaced (hmoves.safeAt hl hlast hnext)

/-- A declaration leaves the new variables on the stack. -/
theorem decl (hl : Loaded items code) {line : Nat} {vars : List TypedName} {value : Option Expr} :
    (Stmt.decl line vars value).Contained limits d items code := by
  intro n k piece first last below hcalls h hspan hplaced _ hnext
  have hheight : (k.after (.decl line vars value)).height = k.height + vars.length := by
    simp only [Site.after, Site.declare, Stmt.declaresVars, List.length_map]
  rw [hheight] at hnext
  cases value with
  | some e =>
      rw [Stmt.Coded] at h
      exact Expr.Coded.safeAt hl hcalls h hspan hplaced hnext
  | none =>
      rw [Stmt.Coded] at h
      -- Without a value the variables are zeros.
      subst h
      intro row state hrow
      refine Safe.walk (hl.walk_zeros hspan) ?_
      rw [← List.append_assoc]
      refine hnext _ state ?_
      rw [List.length_append, List.length_replicate, hrow, Nat.add_comm]

/-- Control passes over a function, whose code is entered by calls alone. -/
theorem func (hl : Loaded items code) {line : Nat} {name : String} {params returns : List TypedName}
    {body : Block} : (Stmt.func line name params returns body).Contained limits d items code := by
  intro n k piece first last below _ h hspan _ _ hnext
  rw [Stmt.Coded] at h
  rcases h with ⟨entry, after, inner, moves, _, _, _, rfl⟩
  rcases hspan.append with ⟨_, hspan, hlast⟩
  rcases hspan.append with ⟨_, hgoTo, -⟩
  rcases hlast.cons with ⟨hlabel, hend⟩
  rw [hend.nil] at hnext
  exact (hnext.label hl hlabel).goTo hl hgoTo hlabel

/-- A body may be jumped over. -/
theorem cond (hl : Loaded items code) {line : Nat} {test : Expr} {body : Block}
    (hpart : body.Contained limits d items code) :
    (Stmt.cond line test body).Contained limits d items code := by
  intro n k piece first last below hcalls h hspan hplaced hloop hnext
  rw [Stmt.Coded] at h
  rcases h with ⟨after, value, inner, hvalue, hinner, rfl⟩
  rcases hspan.append with ⟨_, hspan, hlast⟩
  rcases hspan.append with ⟨_, hspan, hbody⟩
  rcases hspan.append with ⟨_, htest, hgoTo⟩
  rcases hlast.cons with ⟨hlabel, hend⟩
  rw [hend.nil] at hnext
  have hnext := hnext.label hl hlabel
  exact Expr.Coded.safeAt hl hcalls hvalue htest hplaced (hnext.goToUnless hl hgoTo hlabel
    (hpart hcalls hinner hbody hplaced hloop hnext))

/-- The comparisons lead to one of the bodies. -/
theorem switch (hl : Loaded items code) {line : Nat} {subject : Expr} {cases : List Case}
    (hparts : Case.Contained limits d items code cases) :
    (Stmt.switch line subject cases).Contained limits d items code := by
  intro n k piece first last below hcalls h hspan hplaced hloop hnext
  rw [Stmt.Coded] at h
  rcases h with ⟨after, ids, value, tests, bodies, hvalue, htests, hbodies, rfl⟩
  rcases hspan.append with ⟨_, hspan, hlast⟩
  rcases hspan.append with ⟨_, hspan, hbodiesspan⟩
  rcases hspan.append with ⟨_, hspan, hgoTo⟩
  rcases hspan.append with ⟨_, hvaluespan, htestsspan⟩
  rcases hlast.cons with ⟨hlabel, hlast⟩
  have hpop : Item.Span items _ (Item.pops 1) last := hlast
  have hnext := (hnext.pops hl hpop).label hl hlabel
  exact Expr.Coded.safeAt hl hcalls hvalue hvaluespan hplaced
    (hparts hcalls htests htestsspan hbodies hbodiesspan hplaced hloop hlabel
      hnext (hnext.goTo hl hgoTo hlabel))

/-- Each round uses up a step at the label where it starts, so the rounds are safe by induction on
    the number of steps. -/
theorem loop (hl : Loaded items code) {line preLine : Nat} {pre : List Stmt} {test : Expr}
    {post body : Block} (hthen : post.Contained limits d items code)
    (hone : body.Contained limits d items code)
    (hinit : Stmt.ContainedSeq limits d items code pre) :
    (Stmt.loop line ⟨preLine, pre⟩ test post body).Contained limits d items code := by
  intro n k piece first last below hcalls h hspan hplaced hloop hnext
  rw [Stmt.Coded] at h
  rcases h with ⟨entry, start, again, exit, begin, value, inner, finish, hpre, hvalue, hbody,
    hpost, rfl⟩
  rcases hspan.append with ⟨top, hprespan, hspan⟩
  rcases hspan.cons with ⟨hstart, hspan⟩
  rcases hspan.append with ⟨_, hspan, hlast⟩
  rcases hspan.append with ⟨_, hspan, hbodyspan⟩
  rcases hspan.append with ⟨_, htest, hgoTo⟩
  rcases hlast.cons with ⟨hagain, hlast⟩
  rcases hlast.append with ⟨bottom, hlast, hpops⟩
  rcases hlast.append with ⟨_, hpostspan, hback⟩
  rcases hpops.cons with ⟨hexit, hpops⟩
  have hplaced := hplaced.enter hpre hprespan
  -- The site of everything but the initialisation.
  obtain ⟨k', hk'⟩ : ∃ k', k' = (k.enter pre entry).afterSeq pre := ⟨_, rfl⟩
  have hheight : k'.height = k.height + (Stmt.declaredSeq pre).length := by
    rw [hk', Site.height_afterSeq]
    rfl
  have hloop' : k'.loop = k.loop := by
    rw [hk', Site.loop_afterSeq]
    rfl
  have hplaced' : k'.functions.Placed d items := by
    rw [hk', Site.functions_afterSeq]
    exact hplaced
  rw [← hk'] at hvalue hbody hpost
  have hout : SafeAt limits code (Item.sizeAll items) n bottom k'.height below := by
    rw [hheight]
    exact (hnext.pops hl hpops).label hl hexit
  -- Each round uses up a step at the label where it starts.
  have hround : ∀ m ≤ n, SafeAt limits code (Item.sizeAll items) m top k'.height below := by
    intro m
    induction m with
    | zero => exact fun _ _ _ _ => trivial
    | succ m ih =>
        intro hm row state hrow
        have hcalls' : ∀ j < m, SafeCalls limits d items code j :=
          fun j hj => hcalls j (by omega)
        have hout := hout.le (m := m) (by omega)
        have hlater : SafeLoop limits items code m k' below := by
          intro l hk
          rw [hloop'] at hk
          exact hloop.le (by omega) l hk
        have hnextround := (hthen hcalls' hpost hpostspan hplaced' hlater
          ((ih (by omega)).goTo hl hback hstart)).label hl hagain
        have hinside : SafeLoop limits items code m (k'.inLoop exit again) below := by
          intro l hk position hposition
          obtain rfl := Option.some.inj hk
          rcases hposition with hposition | hposition
          · rw [hexit.label_unique hl.unique hposition]
            exact hout
          · rw [hagain.label_unique hl.unique hposition]
            exact hnextround
        have htested := Expr.Coded.safeAt hl hcalls' hvalue htest hplaced'
          (hout.goToUnless hl hgoTo hexit (hone (k := k'.inLoop exit again)
            hcalls' hbody hbodyspan hplaced' hinside hnextround))
        exact Safe.next hstart.lt_sizeAll (hl.step_label hstart) (htested row state hrow)
  have hall : SafeAt limits code (Item.sizeAll items) n first (k.enter pre entry).height below := by
    refine hinit hcalls hpre hprespan hplaced hloop ?_
    rw [← hk']
    exact hround n (Nat.le_refl n)
  exact hall

/-- A break goes to the end of the loop. -/
theorem brk (hl : Loaded items code) {line : Nat} :
    (Stmt.brk line).Contained limits d items code := by
  intro n k piece first last below _ h hspan _ hloop _
  rw [Stmt.Coded] at h
  exact h.safeAt hl hspan fun l hl position hposition => hloop l hl position (Or.inl hposition)

/-- A continue goes to the post part. -/
theorem cont (hl : Loaded items code) {line : Nat} :
    (Stmt.cont line).Contained limits d items code := by
  intro n k piece first last below _ h hspan _ hloop _
  rw [Stmt.Coded] at h
  exact h.safeAt hl hspan fun l hl position hposition => hloop l hl position (Or.inr hposition)

/-- A block is what is in it. -/
theorem block {b : Block} (hpart : b.Contained limits d items code) :
    (Stmt.block b).Contained limits d items code := by
  intro n k piece first last below hcalls h hspan hplaced hloop hnext
  rw [Stmt.Coded] at h
  exact hpart hcalls h hspan hplaced hloop hnext

/-- There is no code for what is in loose assembly only. -/
theorem label {line : Nat} {name : String} :
    (Stmt.label line name).Contained limits d items code := by
  intro n k piece first last below _ h _ _ _ _
  rw [Stmt.Coded] at h
  exact h.elim

/-- Assignments from the stack are not part of readable code. -/
theorem stackAssign {line : Nat} {target : Identifier} :
    (Stmt.stackAssign line target).Contained limits d items code := by
  intro n k piece first last below _ h _ _ _ _
  rw [Stmt.Coded] at h
  exact h.elim

end Stmt.Contained

namespace Case.Contained

/-- Without cases, control falls through. -/
theorem nil : Case.Contained limits d items code [] := by
  intro n k ids tests bodies after first last first' last' below _ htests hspan _ _ _ _ _ _ hnext
  rw [Case.codedTests_nil] at htests
  obtain ⟨-, rfl⟩ := htests
  rw [hspan.nil] at hnext
  exact hnext

/-- The default stands behind the comparisons. -/
theorem default {line : Nat} {body : Block} {rest : List Case}
    (hpart : body.Contained limits d items code) :
    Case.Contained limits d items code (⟨line, none, body⟩ :: rest) := by
  intro n k ids tests bodies after first last first' last' below hcalls htests hspan _ _ hplaced
    hloop _ _ hnext
  rw [Case.codedTests_default] at htests
  exact hpart (k := k.push 1) hcalls htests.2.2 hspan hplaced hloop hnext

/-- A value is compared, and either its body comes next or the other cases do. -/
theorem value (hl : Loaded items code) {line : Nat} {l : Literal} {body : Block} {rest : List Case}
    (hpart : body.Contained limits d items code)
    (hothers : Case.Contained limits d items code rest) :
    Case.Contained limits d items code (⟨line, some l, body⟩ :: rest) := by
  intro n k ids tests bodies after first last first' last' below hcalls htests hspan hbodies hspan'
    hplaced hloop hlabel hafter hnext
  rw [Case.codedTests_value] at htests
  rcases htests with ⟨w, id, others, later, _, rfl, hlater, rfl⟩
  rw [Case.CodedBodies] at hbodies
  rcases hbodies with ⟨inner, more, hinner, hmore, rfl⟩
  rcases hspan'.cons with ⟨hid, hspan'⟩
  rcases hspan'.append with ⟨_, hspan', hmorespan⟩
  rcases hspan'.append with ⟨middle, hinnerspan, hgoTo⟩
  have hspan : Item.Span items first ((.constant w :: .instruction (.dup 1) :: .instruction .eq
    :: Item.goToIf id) ++ later) last := hspan
  rcases hspan.append with ⟨_, hcase, hlaterspan⟩
  -- The last of the bodies runs into the end, and the others jump there.
  have hout : SafeAt limits code (Item.sizeAll items) n middle (k.height + 1) below := by
    split at hgoTo
    · rename_i hlast
      obtain rfl := List.isEmpty_iff.mp hlast
      obtain rfl := hmore.nil
      rw [hmorespan.nil, hgoTo.nil] at hafter
      exact hafter
    · exact hafter.goTo hl hgoTo hlabel
  have hbody := (hpart (k := k.push 1) hcalls hinner hinnerspan hplaced hloop hout).label hl hid
  exact SafeAt.goToCase hl hcase hid hbody
    (hothers hcalls hlater hlaterspan hmore hmorespan hplaced hloop hlabel hafter hnext)

end Case.Contained

mutual

/-- Code of a block is safe if what follows is, and the labels of the loop around it. -/
theorem Block.Coded.safeAt (hl : Loaded items code) : ∀ b : Block, b.Contained limits d items code
  | ⟨_, stmts⟩ => .of_stmts hl (Stmt.CodedSeq.safeAt hl stmts)

theorem Stmt.CodedSeq.safeAt (hl : Loaded items code) : ∀ stmts : List Stmt,
    Stmt.ContainedSeq limits d items code stmts
  | [] => .nil
  | s :: rest => .cons (Stmt.Coded.safeAt hl s) (Stmt.CodedSeq.safeAt hl rest)

/-- Code of a statement is safe if what follows is, and the labels of the loop around it. -/
theorem Stmt.Coded.safeAt (hl : Loaded items code) : ∀ s : Stmt, s.Contained limits d items code
  | .expr _ _ => .expr hl
  | .assign _ _ _ => .assign hl
  | .decl _ _ _ => .decl hl
  | .func _ _ _ _ _ => .func hl
  | .cond _ _ body => .cond hl (Block.Coded.safeAt hl body)
  | .switch _ _ cases => .switch hl (Case.Coded.safeAt hl cases)
  | .loop _ ⟨_, pre⟩ _ post body => .loop hl (Block.Coded.safeAt hl post)
      (Block.Coded.safeAt hl body) (Stmt.CodedSeq.safeAt hl pre)
  | .brk _ => .brk hl
  | .cont _ => .cont hl
  | .block b => .block (Block.Coded.safeAt hl b)
  | .label _ _ => .label
  | .stackAssign _ _ => .stackAssign

/-- The comparisons of a switch are safe if its end is: each goes on with the next one or
    with the body of its case, which goes on at the end. -/
theorem Case.Coded.safeAt (hl : Loaded items code) : ∀ cases : List Case,
    Case.Contained limits d items code cases
  | [] => .nil
  | ⟨_, none, body⟩ :: _ => .default (Block.Coded.safeAt hl body)
  | ⟨_, some _, body⟩ :: rest => .value hl (Block.Coded.safeAt hl body) (Case.Coded.safeAt hl rest)

end

/-- The code of a function is safe where it returns to. -/
theorem Bytecode.SafeCalls.of_lt (hl : Loaded items code) {n : Nat}
    (hcalls : ∀ m < n, SafeCalls limits d items code m) : SafeCalls limits d items code n := by
  intro t f entry first last piece hplaced hf hspan args ret back stack hargs hret hnext state
  rcases hf with ⟨inner, moves, hbody, hmoves, rfl⟩
  rcases hspan.cons with ⟨hlabel, hspan⟩
  rcases hspan.append with ⟨_, hspan, hjump⟩
  rcases hspan.append with ⟨bottom, hspan, hmovesspan⟩
  rcases hspan.append with ⟨_, hzeros, hbodyspan⟩
  rcases hjump.cons with ⟨hjump, -⟩
  -- At the end of the body there are arguments and results above the position to return to.
  have hout : SafeAt limits code (Item.sizeAll items) n bottom
      (Site.ofFunction t f.params f.returns).height (ret :: stack) := by
    intro row state hrow
    have hrow : row.length = f.params.length + f.returns.length := hrow
    have hresults : (row.reverse.drop f.params.length).length = f.returns.length := by
      rw [List.length_drop, List.length_reverse]
      omega
    have hargs : (row.reverse.take f.params.length).length = f.params.length := by
      rw [List.length_take, List.length_reverse]
      omega
    have hsplit := congrArg List.reverse (List.take_append_drop f.params.length row.reverse)
    rw [List.reverse_reverse] at hsplit
    rw [← hsplit]
    refine Safe.walk ((hl.walk_unwind hmoves hargs hresults hmovesspan).trans
      (.one hjump.lt_sizeAll (hl.step_jump hjump hret))) ?_
    exact hnext _ state (by rw [List.length_reverse, hresults])
  have hbegin := Block.Coded.safeAt (k := .ofFunction t f.params f.returns) hl f.body hcalls hbody
    hbodyspan hplaced (fun l hc => absurd hc (by rintro ⟨⟩)) hout
  refine Safe.walk (.step hlabel.lt_sizeAll (hl.step_label hlabel) (hl.walk_zeros hzeros)) ?_
  rw [← List.append_assoc]
  refine hbegin _ state ?_
  rw [List.length_append, List.length_replicate, hargs, Nat.add_comm]
  rfl

/-- Code of a program is not left but at its end. -/
theorem Block.Coded.confined (hl : Loaded items code) {program : Block}
    (h : program.Coded d .empty items) (calldata : List UInt8) :
    Confined limits code (Item.sizeAll items) (start calldata) := by
  refine Confined.of_safe fun n => ?_
  have hcalls : ∀ n, SafeCalls limits d items code n := fun n =>
    Nat.strong_induction_on n fun _ ih => SafeCalls.of_lt hl ih
  have hend : SafeAt limits code (Item.sizeAll items) n (Item.sizeAll items) Site.empty.height
      [] := by
    intro row state hrow
    obtain rfl := List.length_eq_zero_iff.mp hrow
    cases n with
    | zero => trivial
    | succ n => exact Or.inl ⟨rfl, rfl⟩
  exact Block.Coded.safeAt hl program (fun m _ => hcalls m) h (.whole items) trivial
    (fun l hc => absurd hc (by rintro ⟨⟩)) hend [] _ rfl

end Statements

end YulToolchain
