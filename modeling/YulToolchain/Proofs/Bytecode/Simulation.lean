import YulToolchain.Proofs.Bytecode.Mirror

/-!
# Frames Along Statements

What becomes of the frame of a place when a statement is executed there.

A statement leaves the machine behind its code with the frame of the site there, or, if it
leaves a loop, at one of the labels of the loop with just the part of the frame that the
loop has (`Site.Arrives`). Frames agree with environments along declarations and
assignments, at the start of a block, and behind it.

## Main definitions

* `Site.Leaves`, `Site.Arrives`: Where the machine is after a statement.

## Theorems

* `Site.Suits.enter`, `Site.Suits.declare`, `Site.Suits.afterSeq`: Sites along well-formed code.
* `Site.Agrees.declareAll`, `Site.Agrees.tail`: Frames along declarations and behind blocks.
* `Site.CodedAssign.performed`, `Site.CodedAssign.walk`: Assignments.
-/

namespace YulToolchain

open Bytecode

section Lookups

variable {x : String} {w : Word} {pairs : List (String × Word)}

/-- Where keys are different, a pair of the list is what is found. -/
theorem lookup_of_mem_nodup : ∀ {pairs : List (String × Word)}, (pairs.map (·.1)).Nodup →
    (x, w) ∈ pairs → pairs.lookup x = some w
  | [], _, h => absurd h List.not_mem_nil
  | (y, u) :: rest, hnodup, h => by
      rw [List.map_cons, List.nodup_cons] at hnodup
      rw [List.lookup_cons]
      rcases List.mem_cons.mp h with heq | hmem
      · obtain ⟨rfl, rfl⟩ := Prod.mk.inj heq
        rw [beq_self_eq_true]
      · have hne : x ≠ y := by
          rintro rfl
          exact hnodup.1 (List.mem_map.mpr ⟨_, hmem, rfl⟩)
        rw [beq_eq_false_iff_ne.mpr hne]
        exact lookup_of_mem_nodup hnodup.2 hmem

/-- If names are given one value each, it does not matter in which order. -/
theorem lookup_reverse_of_nodup (hnodup : (pairs.map (·.1)).Nodup) (x : String) :
    pairs.reverse.lookup x = pairs.lookup x := by
  have hreverse : (pairs.reverse.map (·.1)).Nodup := by
    rw [List.map_reverse]
    exact List.nodup_reverse.mpr hnodup
  rcases hx : pairs.lookup x with _ | w
  · rw [List.lookup_eq_none_iff] at hx ⊢
    exact fun p hp => hx p (List.mem_reverse.mp hp)
  · rcases List.lookup_eq_some_iff.mp hx with ⟨before, after, rfl, -⟩
    refine lookup_of_mem_nodup hreverse (List.mem_reverse.mpr ?_)
    exact List.mem_append_right _ List.mem_cons_self

end Lookups

/-- The statements of a function are among those of the block that defines it. -/
theorem Stmt.mem_allStmtsSeq_of_function {f : FunctionDef} {s : Stmt} (hs : s ∈ f.body.allStmts) :
    ∀ {stmts : List Stmt}, f ∈ stmts.filterMap Stmt.function? → s ∈ Stmt.allStmtsSeq stmts
  | [], h => absurd h List.not_mem_nil
  | first :: rest, h => by
      rw [Stmt.allStmtsSeq]
      rcases List.mem_filterMap.mp h with ⟨s', hs', hf⟩
      rcases List.mem_cons.mp hs' with rfl | hs'
      · cases s' with
        | func line name params returns body =>
            obtain rfl := Option.some.inj hf
            rw [Stmt.allInner]
            exact List.mem_cons_of_mem _ (List.mem_append_left _ hs)
        | _ => exact absurd hf (by rintro ⟨⟩)
      · refine List.mem_cons_of_mem _ (List.mem_append_right _ ?_)
        exact Stmt.mem_allStmtsSeq_of_function hs (List.mem_filterMap.mpr ⟨s', hs', hf⟩)

/-- The machine is at a label of the loop around a place, with the frame of the loop. -/
def Site.Leaves (items : List Item) (k : Site) (v : Sight) (below : List Word)
    (goal : LoopSite → Nat) (t : RunState) (c : Config) : Prop :=
  ∃ l position row, k.loop = some l ∧ (Item.label (goal l)).StandsAt items position ∧
    row.length = l.height ∧ k.Agrees v t.env row ∧ c = ⟨position, row.reverse ++ below, t.machine⟩

/-- Where the machine is after a statement: behind it with the frame of the site there, or
    where the loop around it goes on. -/
def Site.Arrives (items : List Item) (k : Site) (v : Sight) (below : List Word) (k' : Site)
    (v' : Sight) (last : Nat) : Flow → RunState → Config → Prop
  | .next, t, c => ∃ row, row.length = k'.height ∧ k'.Agrees v' t.env row ∧
      c = ⟨last, row.reverse ++ below, t.machine⟩
  | .brk, t, c => k.Leaves items v below LoopSite.exit t c
  | .cont, t, c => k.Leaves items v below LoopSite.next t c

section Sites

variable {d : Dialect} {items : List Item} {v : Sight} {k : Site} {env : Environment}
  {row : List Word} {names : List String}

/-- Variables that are declared do not get in the way of those before. -/
theorem Site.Agrees.before (hnew : ∀ x ∈ names, x ∉ v.visible)
    (h : (k.declare names).Agrees (v.declare names) env row) : k.Agrees v env row := by
  intro x hx slot hlt hslot
  refine h x (v.visible_subset_declare names hx) slot hlt ?_
  rw [Site.declare, List.lookup_append, lookup_zipIdx_eq_none fun hmem => hnew x hmem hx]
  exact hslot

/-- Fewer words tell less. -/
theorem Site.Agrees.take (h : k.Agrees v env row) (n : Nat) : k.Agrees v env (row.take n) := by
  intro x hx slot hlt hslot
  rw [List.length_take] at hlt
  rw [List.getElem?_take_of_lt (by omega)]
  exact h x hx slot (by omega) hslot

/-- Leaving a scope does not change what is outside of it. -/
theorem Site.Agrees.tail {t : RunState} (h : k.Agrees v t.env row) (hcloses : Closes v t) :
    k.Agrees v t.env.tail row := by
  intro x hx slot hlt hslot
  rw [hcloses.get?_tail hx]
  exact h x hx slot hlt hslot

/-- The site behind a declaration. -/
theorem Site.Suits.declare (h : k.Suits d items v) (hfree : v.Free d names) :
    (k.declare names).Suits d items (v.declare names) := by
  refine ⟨Sight.distinct_declare h.distinct hfree, ?_, ?_, h.placed, ?_, h.laid.declare names⟩
  · rw [Sight.functions_declare]
    exact h.fit
  · rw [Sight.functions_declare]
    exact h.functions
  · rw [Sight.functions_declare]
    exact h.comparable

/-- The values of a declaration are those of its variables. -/
theorem Site.Agrees.declareAll {values : List Word} (h : k.Agrees v env row)
    (hk : k.Suits d items v)
    (hrow : row.length = k.height) (hfree : v.Free d names) (hvalues : values.length = names.length)
    (henv : Environment.Holds v.vars env) :
    (k.declare names).Agrees (v.declare names) (env.declareAll (names.zip values))
      (row ++ values) := by
  intro x hx slot hlt hslot
  -- There is a scope to declare in, since something is visible.
  have hne : env ≠ [] := by
    rintro rfl
    rcases v with ⟨functions, _ | ⟨scope, outer⟩, hidden⟩
    · exact absurd hx List.not_mem_nil
    · cases henv
  have hfst : (names.zip values).map (·.1) = names := List.map_fst_zip (Nat.le_of_eq hvalues.symm)
  have hnodup : ((names.zip values).map (·.1)).Nodup := by
    rw [hfst]
    exact hfree.1
  -- A variable is one of the new ones, or it has its old word.
  rw [Environment.get?_declareAll _ hne, lookup_reverse_of_nodup hnodup]
  rcases Site.lookup_declare hslot with ⟨hle, hi⟩ | ⟨hnew, hslot⟩
  · -- One of the variables that are declared.
    obtain ⟨i, rfl⟩ : ∃ i, slot = k.height + i := ⟨slot - k.height, by omega⟩
    rw [Nat.add_sub_cancel_left] at hi
    have hilt := (List.getElem?_eq_some_iff.mp hi).1
    have hvalue : values[i]? = some values[i] := List.getElem?_eq_getElem (by omega)
    have hmem : (x, values[i]) ∈ names.zip values := by
      refine List.mem_of_getElem? (i := i) ?_
      rw [List.getElem?_zip_eq_some]
      exact ⟨hi, hvalue⟩
    rw [lookup_of_mem_nodup hnodup hmem, List.getElem?_append_right (by omega), hrow,
      Nat.add_sub_cancel_left, hvalue]
    rfl
  -- An old variable, whose slot is below the new ones.
  · have hlt' := hk.laid.bounded x slot hslot
    have hnone : (names.zip values).lookup x = none := by
      rw [← lookup_reverse_of_nodup hnodup]
      exact lookup_reverse_eq_none (by rw [hfst]; exact hnew)
    rw [hnone, Option.none_or, List.getElem?_append_left (by omega)]
    exact h x ((Sight.mem_visible_declare hx).resolve_right hnew) slot (by omega) hslot

/-- The site at the start of a block. -/
theorem Site.Suits.enter {stmts : List Stmt} {entry : FunctionDef → Nat} {inLoop : Bool}
    {piece : List Item} {first last : Nat} (h : k.Suits d items v)
    (hfree : v.Free d ((stmts.filterMap Stmt.function?).map (·.name)))
    (hfits : Stmt.FitsSeq d (v.enter stmts) inLoop stmts)
    (hcomparable : ∀ s ∈ Stmt.allStmtsSeq stmts, s.comparable d = true)
    (hcode : Stmt.CodedSeq d (k.enter stmts entry) stmts piece)
    (hspan : Item.Span items first piece last) :
    (k.enter stmts entry).Suits d items (v.enter stmts) := by
  refine ⟨Sight.distinct_enter h.distinct hfree, .enter h.distinct h.fit hfree hfits, ?_,
    h.placed.enter hcode hspan, ?_, h.laid.enter stmts entry⟩
  -- The functions in sight are those of the block and the old ones.
  · rw [Sight.functions_enter, ← h.functions]
    simp only [Site.enter, EntryTable.functions, List.map_cons, List.map_map]
    congr 1
    exact List.map_id _
  -- The functions of the block are comparable since its statements are.
  · intro here hhere f hf
    rw [Sight.functions_enter] at hhere
    rcases List.mem_cons.mp hhere with rfl | hhere
    · rw [Block.comparable, List.all_eq_true]
      exact fun s hs => hcomparable s (Stmt.mem_allStmtsSeq_of_function hs hf)
    · exact h.comparable here hhere f hf

/-- The site behind a statement. -/
theorem Site.Suits.after {s : Stmt} {inLoop : Bool} (h : k.Suits d items v)
    (hfits : s.Fits d v inLoop) : (k.after s).Suits d items (v.after s) := by
  cases s with
  | decl line vars value =>
      rw [Stmt.Fits] at hfits
      exact h.declare hfits.2
  | _ => exact h

/-- What suits a site suits it behind the statements that fit. -/
theorem Site.Suits.afterSeq {inLoop : Bool} : ∀ {stmts : List Stmt} {k : Site} {v : Sight},
    k.Suits d items v → Stmt.FitsSeq d v inLoop stmts →
      (k.afterSeq stmts).Suits d items (v.afterSeq stmts)
  | [], _, _, h, _ => h
  | _ :: _, _, _, h, hfits => by
      rw [Stmt.FitsSeq] at hfits
      exact (h.after hfits.1).afterSeq hfits.2

/-- What agrees behind a statement agreed before, for the variables that were there. -/
theorem Site.Agrees.beforeStmt {s : Stmt} {inLoop : Bool} (hfits : s.Fits d v inLoop)
    (h : (k.after s).Agrees (v.after s) env row) : k.Agrees v env row := by
  cases s with
  | decl line vars value =>
      rw [Stmt.Fits] at hfits
      refine h.before fun x hx hmem => (hfits.2.2 x hx).2.2 ?_
      exact Sight.mem_taken.mpr (Or.inr (Or.inl hmem))
  | _ => exact h

/-- The same for statements. -/
theorem Site.Agrees.beforeSeq {inLoop : Bool} : ∀ {stmts : List Stmt} {k : Site} {v : Sight},
    Stmt.FitsSeq d v inLoop stmts → (k.afterSeq stmts).Agrees (v.afterSeq stmts) env row →
      k.Agrees v env row
  | [], _, _, _, h => h
  | _ :: _, _, _, hfits, h => by
      rw [Stmt.FitsSeq] at hfits
      exact (Site.Agrees.beforeSeq hfits.2 h).beforeStmt hfits.1

/-- Where a statement goes on is where it goes on seen from a statement before. -/
theorem Site.Arrives.beforeStmt {s : Stmt} {inLoop : Bool} {below : List Word} {k' : Site}
    {v' : Sight} {last : Nat} {flow : Flow} {t : RunState} {c : Config} (hfits : s.Fits d v inLoop)
    (h : (k.after s).Arrives items (v.after s) below k' v' last flow t c) :
    k.Arrives items v below k' v' last flow t c := by
  have hleaves : ∀ goal, (k.after s).Leaves items (v.after s) below goal t c →
      k.Leaves items v below goal t c := by
    rintro goal ⟨l, position, row, hloop, hlabel, hrow, hagrees, hc⟩
    exact ⟨l, position, row, hloop, hlabel, hrow, hagrees.beforeStmt hfits, hc⟩
  cases flow with
  | next => exact h
  | brk => exact hleaves _ h
  | cont => exact hleaves _ h

end Sites

section Moves

variable {limits : Limits} {d : Dialect} {items : List Item} {code : List UInt8} {v : Sight}
  {last : Nat} {below : List Word} {state : MachineState}

/-- A frame is lowered. -/
theorem Bytecode.Loaded.walk_lower (hl : Loaded items code) {row : List Word}
    {height count first : Nat}
    (hrow : row.length = height + count) (hspan : Item.Span items first (Item.pops count) last) :
    Walks limits code (Item.sizeAll items) ⟨first, row.reverse ++ below, state⟩
      ⟨last, (row.take height).reverse ++ below, state⟩ := by
  have hsplit : row.reverse ++ below
      = (row.drop height).reverse ++ ((row.take height).reverse ++ below) := by
    rw [← List.append_assoc, ← List.reverse_append, List.take_append_drop]
  have hcount : (row.drop height).reverse.length = count := by
    rw [List.length_reverse, List.length_drop]
    omega
  rw [hsplit]
  rw [← hcount] at hspan
  exact hl.walk_pops _ hspan

/-- Values on top of a frame are put into their variables. Of several values for one variable
    the first one counts. -/
theorem Site.CodedAssign.performed {k : Site} (hk : k.Laid) : ∀ {targets : List Identifier}
    {piece : List Item} {n : Nat}, (k.push n).CodedAssign targets piece →
      ∃ depths : List (Fin 16), depths.length = targets.length ∧
        piece = (Instruction.stores depths).map .instruction ∧
        ∀ row values extra, row.length = k.height → values.length = targets.length →
          extra.length = n → ∃ row' : List Word, row'.length = k.height ∧
            (∀ y slot, k.slots.lookup y = some slot →
              row'[slot]? = (((targets.map (·.name)).zip values).lookup y).or row[slot]?) ∧
            ∀ limits code pc below state, performAll limits code (Instruction.stores depths)
                ⟨pc, (row ++ extra ++ values).reverse ++ below, state⟩
              = some ⟨pc + (Instruction.stores depths).length,
                (row' ++ extra).reverse ++ below, state⟩
  -- The last target is stored first, with the others left above the row.
  | [], piece, n, h => by
      refine ⟨[], rfl, h, fun row values extra hrow hvalues _ => ⟨row, hrow, fun _ _ _ => rfl, ?_⟩⟩
      obtain rfl := List.length_eq_zero_iff.mp hvalues
      intro limits code pc below state
      rw [List.append_nil]
      rfl
  | x :: rest, piece, n, h => by
      rcases h with ⟨later, slot, depth, hlater, hslot, hdepth, rfl⟩
      -- The later targets are stored with one word more in between.
      rcases Site.CodedAssign.performed hk (n := n + 1) hlater with
        ⟨depths, hlength, rfl, hperforms⟩
      refine ⟨depths ++ [depth], by rw [List.length_append, hlength]; rfl, ?_, ?_⟩
      · rw [Instruction.stores_concat, List.map_append]
        rfl
      intro row values extra hrow hvalues hextra
      rcases values with _ | ⟨w, values⟩
      · exact absurd hvalues (by rintro ⟨⟩)
      rcases hperforms row values (extra ++ [w]) hrow (Nat.succ.inj hvalues)
        (by rw [List.length_append, hextra]; rfl) with ⟨row', hrow', hother, hperform⟩
      have hbound := hk.bounded x.name slot hslot
      have hdepth : slot + depth.val + 1 = (row' ++ extra).length := by
        rw [List.length_append, hrow', hextra, hdepth]
        rfl
      -- The slot of the target is below the words in between.
      obtain ⟨u, hu⟩ : ∃ u, (row' ++ extra)[slot]? = some u :=
        ⟨_, List.getElem?_eq_getElem (by omega)⟩
      refine ⟨row'.set slot w, by rw [List.length_set, hrow'], fun y slot' hslot' => ?_, ?_⟩
      · rw [List.getElem?_set, List.map_cons, List.zip_cons_cons, List.lookup_cons]
        -- A name that comes again was found first in the list.
        by_cases hxy : y = x.name
        · subst hxy
          obtain rfl : slot = slot' := Option.some.inj (hslot.symm.trans hslot')
          rw [if_pos rfl, if_pos (by omega), beq_self_eq_true]
          rfl
        · have hne : slot ≠ slot' := by
            rintro rfl
            exact hxy (hk.apart y x.name slot hslot' hslot)
          rw [if_neg hne, beq_eq_false_iff_ne.mpr hxy]
          exact hother y slot' hslot'
      -- The machine performs the stores of the later targets, and then the one of this target.
      · intro limits code pc below state
        have hset : (row' ++ extra).set slot w = row'.set slot w ++ extra :=
          List.set_append_left _ _ (by omega)
        have hstart : (row ++ extra ++ w :: values).reverse ++ below
            = (row ++ (extra ++ [w]) ++ values).reverse ++ below := by
          simp only [List.append_assoc, List.cons_append, List.nil_append]
        have htop : (row' ++ (extra ++ [w])).reverse ++ below
            = w :: ((row' ++ extra).reverse ++ below) := by
          rw [← List.append_assoc, List.reverse_append]
          rfl
        rw [Instruction.stores_concat, performAll_append, hstart, hperform, htop, ← hset,
          ← set_row hdepth, List.length_append, ← Nat.add_assoc]
        exact performAll_store ((getElem?_row hdepth).trans hu)

/-- Every target has a slot. -/
theorem Site.CodedAssign.targets : ∀ {targets : List Identifier} {k : Site} {piece : List Item},
    k.CodedAssign targets piece → ∀ x ∈ targets, ∃ slot, k.slots.lookup x.name = some slot
  | [], _, _, _, x, hx => absurd hx List.not_mem_nil
  | _ :: _, k, _, h, x, hx => by
      rcases h with ⟨later, slot, depth, hlater, hslot, -, rfl⟩
      rcases List.mem_cons.mp hx with rfl | hx
      · exact ⟨slot, hslot⟩
      · exact Site.CodedAssign.targets hlater x hx

/-- Values on top of a frame are put into their variables where their code stands. -/
theorem Site.CodedAssign.walk (hl : Loaded items code) {k : Site} (hk : k.Laid)
    {row values : List Word} {targets : List Identifier} {piece : List Item} {first last : Nat}
    (h : k.CodedAssign targets piece) (hspan : Item.Span items first piece last) (limits : Limits)
    (below : List Word) (state : MachineState)
    (hrow : row.length = k.height) (hvalues : values.length = targets.length) :
      ∃ row' : List Word, row'.length = k.height ∧
        (∀ y slot, k.slots.lookup y = some slot →
          row'[slot]? = (((targets.map (·.name)).zip values).lookup y).or row[slot]?) ∧
        Walks limits code (Item.sizeAll items) ⟨first, (row ++ values).reverse ++ below, state⟩
          ⟨last, row'.reverse ++ below, state⟩ := by
  rcases Site.CodedAssign.performed hk (n := 0) h with ⟨depths, _, rfl, hperforms⟩
  rcases hperforms row values [] hrow hvalues rfl with ⟨row', hrow', hother, hperform⟩
  refine ⟨row', hrow', hother, ?_⟩
  have hwalk := hl.walk_stores hspan (hperform limits code first below state)
  rwa [List.append_nil, List.append_nil] at hwalk

end Moves

end YulToolchain
