import YulToolchain.CodeGen.Frame
import YulToolchain.Proofs.Bytecode.Items
import YulToolchain.Proofs.Static.Sight

/-!
# Code as Items

Which items are the code of which piece of a program.

Code generation threads a state through the whole program: numbers of scopes, slots of
variables, labels of entries that are handed out before they are known. None of that
matters once the items are written. What matters at a place is a `Site`: where the
variables in sight lie in the frame of the function, which labels the functions in sight
have, and where the loop around the place goes on. `Coded` says by recursion over the
program that some items are its code at a site. Labels of places are arbitrary numbers
here; that each of them is defined once is a property of all items together.

A frame starts above the position to return to, which code inside of a function never
touches.

## Main definitions

* `EntryTable`: The functions in sight with the labels of their entries.
* `Site`: What code at a place depends on.
* `Expr.Coded`, `Stmt.Coded`, `Block.Coded`, `FunctionDef.Coded`: Items are the code of
  a piece of a program.
* `EntryTable.Placed`: The code of all functions in sight is there.
* `Site.Laid`: Every variable has a slot of its own.

## Theorems

* `EntryTable.find?_functions`: Functions are found with their labels.
* `EntryTable.Placed.enter`: The functions of a block are where its code is.
-/

namespace YulToolchain

/-- The functions of the blocks around a place with the labels of their entries, the
    innermost block first. -/
abbrev EntryTable := List (List (FunctionDef × Nat))

namespace EntryTable

/-- The functions alone. -/
def functions (t : EntryTable) : FunctionScopes := t.map (·.map (·.1))

/-- The function with a name, and the label of its entry. -/
def find? (name : String) : EntryTable → Option (FunctionDef × Nat)
  | [] => none
  | here :: outer => match here.reverse.find? (·.1.name == name) with
    | some found => some found
    | none => EntryTable.find? name outer

/-- A function of the innermost block, with the label of its entry. -/
def Here (t : EntryTable) (f : FunctionDef) (entry : Nat) : Prop :=
  ∃ here outer, t = here :: outer ∧ (f, entry) ∈ here

end EntryTable

/-- Where control goes on when the body of a loop is left. -/
structure LoopSite where
  /-- The label behind the loop. -/
  exit : Nat
  /-- The label of the `post` block. -/
  next : Nat
  /-- The height of the frame at both labels. -/
  height : Nat

/-- What code at a place depends on. -/
structure Site where
  /-- The functions in sight. -/
  functions : EntryTable
  /-- The slots of the variables in sight, counted from the bottom of the frame. -/
  slots : List (String × Nat)
  /-- The height of the frame. -/
  height : Nat
  /-- The loop around the place. -/
  loop : Option LoopSite

namespace Site

/-- The site of a whole program. -/
def empty : Site := ⟨[], [], 0, none⟩

/-- The site with values on top of the frame. -/
def push (n : Nat) (k : Site) : Site := { k with height := k.height + n }

/-- The site after the values on top of the frame have become variables. -/
def declare (names : List String) (k : Site) : Site :=
  { k with slots := names.zipIdx k.height ++ k.slots, height := k.height + names.length }

/-- The site behind a statement. -/
def after (k : Site) (s : Stmt) : Site := k.declare s.declaresVars

/-- The site behind some statements. -/
def afterSeq (k : Site) (stmts : List Stmt) : Site := stmts.foldl after k

/-- The site at the start of a block, given the labels of its functions. -/
def enter (stmts : List Stmt) (entry : FunctionDef → Nat) (k : Site) : Site :=
  { k with functions :=
      ((stmts.filterMap Stmt.function?).map fun f => (f, entry f)) :: k.functions }

/-- The site in the body of a loop, given the labels behind it and of its `post`
    block. -/
def inLoop (exit next : Nat) (k : Site) : Site := { k with loop := some ⟨exit, next, k.height⟩ }

/-- The site in the body of a function. The arguments lie at the bottom of the frame, the
    last one lowest. -/
def ofFunction (t : EntryTable) (params returns : List TypedName) : Site :=
  ⟨t, ((params.reverse ++ returns).map (·.name)).zipIdx, params.length + returns.length, none⟩

end Site

namespace Item

/-- Pushes zeros. -/
def zeros (count : Nat) : List Item := List.replicate count (.constant 0)

/-- Drops slots. -/
def pops (count : Nat) : List Item := List.replicate count (.instruction .pop)

/-- Jumps to a label. -/
def goTo (id : Nat) : List Item := [.reference (.label id), .instruction .jump]

/-- Jumps to a label unless the top of the stack is zero. -/
def goToIf (id : Nat) : List Item := [.reference (.label id), .instruction .jumpi]

/-- Jumps to a label if the top of the stack is zero. -/
def goToUnless (id : Nat) : List Item := .instruction .iszero :: goToIf id

/-- Whether an item pushes a word of its own. -/
def Pushes : Item → Prop
  | .constant _ => True
  | .reference _ => True
  | _ => False

end Item

/-- Items execute an instruction, given the code of its arguments. -/
def Instruction.CodedWith (op : Instruction) (args n : Nat) (code items : List Item) : Prop :=
  op.isStackManipulation = false ∧ args = op.args ∧ n = op.returns ∧
    items = code ++ [.instruction op]

mutual

/-- Items are the code of an expression with a number of values. -/
def Expr.Coded (d : Dialect) (k : Site) : Expr → Nat → List Item → Prop
  | .literal l, n, items => ∃ w, l.value = .ok w ∧ n = 1 ∧ items = [.constant w]
  | .ident _ x, n, items => ∃ (slot : Nat) (depth : Fin 16), k.slots.lookup x = some slot ∧
      slot + depth + 1 = k.height ∧ n = 1 ∧ items = [.instruction (.dup depth)]
  | .instr _ op args, n, items =>
    ∃ code, Expr.CodedArgs d k args code ∧ op.CodedWith args.length n code items
  | .call _ name args, n, items => match d.builtin? name with
    | some b => match b.code with
      | .instruction op =>
        ∃ code, Expr.CodedArgs d k args code ∧ op.CodedWith args.length n code items
      | .dataSize => n = 1 ∧ ∃ i : Item, i.Pushes ∧ items = [i]
      | .dataOffset => n = 1 ∧ ∃ i : Item, i.Pushes ∧ items = [i]
      | .dataCopy =>
        ∃ code, Expr.CodedArgs d k args code ∧
          Instruction.codecopy.CodedWith args.length n code items
      | .stackEffectOnly => n = b.returns ∧
        if b.literalArguments then items = Item.zeros b.returns
        else ∃ code, Expr.CodedArgs d k args code ∧
          items = code ++ Item.pops args.length ++ Item.zeros b.returns
    | none => ∃ f entry back code, k.functions.find? name = some (f, entry) ∧
        args.length = f.params.length ∧ n = f.returns.length ∧
        Expr.CodedArgs d (k.push 1) args code ∧
        items = .reference (.label back) :: (code ++ Item.goTo entry ++ [.label back])

/-- Items are the code of arguments, from the last to the first. -/
def Expr.CodedArgs (d : Dialect) (k : Site) : List Expr → List Item → Prop
  | [], items => items = []
  | e :: rest, items => ∃ later code, Expr.CodedArgs d k rest later ∧
      e.Coded d (k.push rest.length) 1 code ∧ items = later ++ code

end

/-- Items move the values on top of the frame into variables, from the last to the
    first. -/
def Site.CodedAssign (k : Site) : List Identifier → List Item → Prop
  | [], items => items = []
  | x :: rest, items => ∃ (later : List Item) (slot : Nat) (depth : Fin 16),
      (k.push 1).CodedAssign rest later ∧ k.slots.lookup x.name = some slot ∧
      slot + depth + 1 = k.height ∧
      items = later ++ [.instruction (.swap depth), .instruction .pop]

/-- Items leave a loop at one of its labels. -/
def Site.CodedLeave (k : Site) (goal : LoopSite → Nat) (items : List Item) : Prop :=
  ∃ l, k.loop = some l ∧ l.height ≤ k.height ∧
    items = Item.pops (k.height - l.height) ++ Item.goTo (goal l)

/-- The moves that bring the frame of a function into order. -/
def Frame.Unwinds (params returns : Nat) (moves : List Instruction) : Prop :=
  1 + params + returns ≤ 17 ∧ ∃ frame,
    (Frame.ofFunction params returns).unwind (2 * (Frame.ofFunction params returns).size)
      = .ok (moves, frame)

mutual

/-- Items are the code of a block. -/
def Block.Coded (d : Dialect) (k : Site) : Block → List Item → Prop
  | ⟨_, stmts⟩, items => ∃ entry code, Stmt.CodedSeq d (k.enter stmts entry) stmts code ∧
      items = code ++ Item.pops (Stmt.declaredSeq stmts).length

/-- Items are the code of some statements. -/
def Stmt.CodedSeq (d : Dialect) (k : Site) : List Stmt → List Item → Prop
  | [], items => items = []
  | s :: rest, items => ∃ here later, s.Coded d k here ∧ Stmt.CodedSeq d (k.after s) rest later ∧
      items = here ++ later

/-- Items are the code of a statement. -/
def Stmt.Coded (d : Dialect) (k : Site) : Stmt → List Item → Prop
  | .expr _ e, items => e.Coded d k 0 items
  | .assign _ targets value, items => ∃ code moves, value.Coded d k targets.length code ∧
      k.CodedAssign targets moves ∧ items = code ++ moves
  | .decl _ vars value, items => match value with
    | some e => e.Coded d k vars.length items
    | none => items = Item.zeros vars.length
  | .func line name params returns body, items => ∃ entry after code moves,
      k.functions.Here ⟨line, name, params, returns, body⟩ entry ∧
      body.Coded d (.ofFunction k.functions params returns) code ∧
      Frame.Unwinds params.length returns.length moves ∧
      items = Item.goTo after ++ (.label entry :: (Item.zeros returns.length ++ code
        ++ moves.map .instruction ++ [.instruction .jump])) ++ [.label after]
  | .cond _ test body, items => ∃ after value code, test.Coded d k 1 value ∧ body.Coded d k code ∧
      items = value ++ Item.goToUnless after ++ code ++ [.label after]
  | .switch _ subject cases, items => ∃ after ids value tests bodies,
      subject.Coded d k 1 value ∧ Case.CodedTests d (k.push 1) cases ids tests ∧
      Case.CodedBodies d (k.push 1) after ids cases bodies ∧
      items = value ++ tests ++ Item.goTo after ++ bodies ++ [.label after, .instruction .pop]
  | .loop _ ⟨_, pre⟩ test post body, items => ∃ entry start next exit first value inner last,
      Stmt.CodedSeq d (k.enter pre entry) pre first ∧
      test.Coded d ((k.enter pre entry).afterSeq pre) 1 value ∧
      body.Coded d (((k.enter pre entry).afterSeq pre).inLoop exit next) inner ∧
      post.Coded d ((k.enter pre entry).afterSeq pre) last ∧
      items = first ++ (.label start :: (value ++ Item.goToUnless exit ++ inner
        ++ (.label next :: (last ++ Item.goTo start ++ (.label exit
        :: Item.pops (Stmt.declaredSeq pre).length)))))
  | .brk _, items => k.CodedLeave LoopSite.exit items
  | .cont _, items => k.CodedLeave LoopSite.next items
  | .block b, items => b.Coded d k items
  | .label _ _, _ => False
  | .stackAssign _ _, _ => False

/-- Items are the comparisons of a switch, given the labels of the bodies of the cases that
    have a value. The default stands in line, and comes last. -/
def Case.CodedTests (d : Dialect) (k : Site) : List Case → List Nat → List Item → Prop
  | [], ids, items => ids = [] ∧ items = []
  | ⟨_, none, body⟩ :: rest, ids, items => rest = [] ∧ ids = [] ∧ body.Coded d k items
  | ⟨_, some l, _⟩ :: rest, ids, items => ∃ w id others later, l.value = .ok w ∧
      ids = id :: others ∧ Case.CodedTests d k rest others later ∧
      items = .constant w :: .instruction (.dup 1) :: .instruction .eq
        :: (Item.goToIf id ++ later)

/-- Items are the bodies of the cases that have a value, under their labels. -/
def Case.CodedBodies (d : Dialect) (k : Site) (after : Nat) :
    List Nat → List Case → List Item → Prop
  | id :: ids, ⟨_, some _, body⟩ :: rest, items => ∃ code later, body.Coded d k code ∧
      Case.CodedBodies d k after ids rest later ∧
      items = .label id :: (code ++ (if ids.isEmpty then [] else Item.goTo after) ++ later)
  | _, _, items => items = []

end

section Tests

variable {d : Dialect} {k : Site} {rest : List Case} {ids : List Nat} {items : List Item}
    {line : Nat}
  {body : Block} {l : Literal}

theorem Case.codedTests_nil : Case.CodedTests d k [] ids items ↔ ids = [] ∧ items = [] :=
  Iff.rfl

theorem Case.codedTests_default : Case.CodedTests d k (⟨line, none, body⟩ :: rest) ids items ↔
    rest = [] ∧ ids = [] ∧ body.Coded d k items :=
  Iff.rfl

/-- A case is compared with its value, and its label is jumped to. -/
theorem Case.codedTests_value : Case.CodedTests d k (⟨line, some l, body⟩ :: rest) ids items ↔
    ∃ w id others later, l.value = .ok w ∧ ids = id :: others ∧
      Case.CodedTests d k rest others later ∧
      items = .constant w :: .instruction (.dup 1) :: .instruction .eq
        :: (Item.goToIf id ++ later) :=
  Iff.rfl

end Tests

/-- Items are the code of a function, given the functions in sight. -/
def FunctionDef.Coded (d : Dialect) (t : EntryTable) (f : FunctionDef) (entry : Nat)
    (items : List Item) : Prop :=
  ∃ code moves, f.body.Coded d (.ofFunction t f.params f.returns) code ∧
    Frame.Unwinds f.params.length f.returns.length moves ∧
    items = .label entry :: (Item.zeros f.returns.length ++ code ++ moves.map .instruction
      ++ [.instruction .jump])

/-- The code of all functions in sight is among some items. -/
def EntryTable.Placed (d : Dialect) (items : List Item) : EntryTable → Prop
  | [] => True
  | here :: outer => (∀ q ∈ here, ∃ first piece last, q.1.Coded d (here :: outer) q.2 piece ∧
      Item.Span items first piece last) ∧ EntryTable.Placed d items outer

section Slots

/-- Names get the numbers of their places. -/
theorem lookup_zipIdx : ∀ {names : List String} {start i : Nat} {x : String}, names.Nodup →
    names[i]? = some x → (names.zipIdx start).lookup x = some (start + i)
  | [], _, _, _, _, h =>
    absurd h (by simp only [List.getElem?_nil, reduceCtorEq, not_false_eq_true])
  | y :: rest, start, 0, x, _, h => by
      obtain rfl := Option.some.inj h
      simp only [List.zipIdx_cons, List.lookup_cons, beq_self_eq_true, Nat.add_zero]
  | y :: rest, start, i + 1, x, hnodup, h => by
      rw [List.getElem?_cons_succ] at h
      have hne : x ≠ y := by
        rintro rfl
        exact (List.nodup_cons.mp hnodup).1 (List.mem_of_getElem? h)
      rw [List.zipIdx_cons, List.lookup_cons, beq_eq_false_iff_ne.mpr hne]
      exact (lookup_zipIdx (List.nodup_cons.mp hnodup).2 h).trans (by congr 1; omega)

/-- A name that is not in the list is not found. -/
theorem lookup_zipIdx_eq_none {names : List String} {x : String} (h : x ∉ names) (start : Nat) :
    (names.zipIdx start).lookup x = none := by
  rw [List.lookup_eq_none_iff]
  rintro ⟨y, i⟩ hy
  rw [bne_iff_ne]
  rintro rfl
  exact h (List.fst_mem_of_mem_zipIdx hy)

/-- A slot is that of a new variable, or of one from before. -/
theorem Site.lookup_declare {k : Site} {names : List String} {x : String} {slot : Nat}
    (h : (k.declare names).slots.lookup x = some slot) :
    (k.height ≤ slot ∧ names[slot - k.height]? = some x) ∨
      (x ∉ names ∧ k.slots.lookup x = some slot) := by
  rw [Site.declare, List.lookup_append] at h
  by_cases hx : x ∈ names
  -- The name is in the list, so it has a slot there.
  · rcases hnew : (names.zipIdx k.height).lookup x with _ | slot'
    · rw [List.lookup_eq_none_iff] at hnew
      rcases List.mem_iff_getElem?.mp hx with ⟨i, hi⟩
      have hmem : (x, k.height + i) ∈ names.zipIdx k.height := by
        rw [List.mk_mem_zipIdx_iff_le_and_getElem?_sub, Nat.add_sub_cancel_left]
        exact ⟨Nat.le_add_right _ _, hi⟩
      exact absurd (hnew _ hmem)
        (by simp only [bne_self_eq_false, Bool.false_eq_true, not_false_eq_true])
    · rw [hnew] at h
      obtain rfl := Option.some.inj h
      rcases List.lookup_eq_some_iff.mp hnew with ⟨before, after, hsplit, -⟩
      have hmem : (x, slot') ∈ names.zipIdx k.height := by
        rw [hsplit]
        exact List.mem_append_right _ List.mem_cons_self
      exact Or.inl (List.mk_mem_zipIdx_iff_le_and_getElem?_sub.mp hmem)
  · rw [lookup_zipIdx_eq_none hx] at h
    exact Or.inr ⟨hx, h⟩

/-- Every variable has a slot of its own in the frame. -/
structure Site.Laid (k : Site) : Prop where
  bounded : ∀ x slot, k.slots.lookup x = some slot → slot < k.height
  apart : ∀ x y slot, k.slots.lookup x = some slot → k.slots.lookup y = some slot → x = y

theorem Site.Laid.empty : Site.empty.Laid := by
  refine ⟨fun x slot hslot => ?_, fun x y slot hslot => ?_⟩
  all_goals exact absurd hslot (by rintro ⟨⟩)

theorem Site.Laid.push {k : Site} (h : k.Laid) (n : Nat) : (k.push n).Laid :=
  ⟨fun x slot hslot => Nat.lt_of_lt_of_le (h.bounded x slot hslot) (Nat.le_add_right _ _), h.apart⟩

theorem Site.Laid.enter {k : Site} (h : k.Laid) (stmts : List Stmt) (entry : FunctionDef → Nat) :
    (k.enter stmts entry).Laid := ⟨h.bounded, h.apart⟩

theorem Site.Laid.inLoop {k : Site} (h : k.Laid) (exit next : Nat) : (k.inLoop exit next).Laid :=
  ⟨h.bounded, h.apart⟩

/-- New variables get the slots at the top, one each. -/
theorem Site.Laid.declare {k : Site} (h : k.Laid) (names : List String) :
    (k.declare names).Laid := by
  refine ⟨fun x slot hslot => ?_, fun x y slot hslot hslot' => ?_⟩
  · rcases Site.lookup_declare hslot with ⟨hle, hi⟩ | ⟨_, hslot⟩
    · have hlt := (List.getElem?_eq_some_iff.mp hi).1
      rw [Site.declare]
      simp only
      omega
    · exact Nat.lt_of_lt_of_le (h.bounded x slot hslot) (Nat.le_add_right _ _)
  · rcases Site.lookup_declare hslot with ⟨hle, hi⟩ | ⟨hnew, hslot⟩
    · rcases Site.lookup_declare hslot' with ⟨_, hi'⟩ | ⟨_, hslot'⟩
      · exact Option.some.inj (hi.symm.trans hi')
      · exact absurd (h.bounded y slot hslot') (Nat.not_lt.mpr hle)
    · rcases Site.lookup_declare hslot' with ⟨hle, _⟩ | ⟨hnew', hslot'⟩
      · exact absurd (h.bounded x slot hslot) (Nat.not_lt.mpr hle)
      · exact h.apart x y slot hslot hslot'

/-- Statements leave a site in order. -/
theorem Site.Laid.afterSeq {k : Site} (h : k.Laid) (stmts : List Stmt) :
    (k.afterSeq stmts).Laid := by
  induction stmts generalizing k with
  | nil => exact h
  | cons s rest ih => exact ih (h.declare s.declaresVars)

/-- The frame of a function is that of its parameters and return variables. -/
theorem Site.Laid.ofFunction (t : EntryTable) (params returns : List TypedName) :
    (Site.ofFunction t params returns).Laid := by
  have h := Site.Laid.empty.declare ((params.reverse ++ returns).map (·.name))
  have hheight : ((params.reverse ++ returns).map (·.name)).length
      = params.length + returns.length := by
    rw [List.length_map, List.length_append, List.length_reverse]
  refine ⟨fun x slot hslot => ?_, fun x y slot hslot hslot' => ?_⟩
  · have hlt := h.bounded x slot (by rw [Site.declare, Site.empty, List.append_nil]; exact hslot)
    rw [Site.declare, Site.empty, hheight, Nat.zero_add] at hlt
    exact hlt
  · refine h.apart x y slot ?_ ?_
    · rw [Site.declare, Site.empty, List.append_nil]
      exact hslot
    · rw [Site.declare, Site.empty, List.append_nil]
      exact hslot'

end Slots

section Tables

variable {d : Dialect} {items : List Item}

/-- The code of a function starts with the label of its entry. -/
theorem FunctionDef.Coded.stands {t : EntryTable} {f : FunctionDef} {entry first last : Nat}
    {piece : List Item} (h : f.Coded d t entry piece) (hspan : Item.Span items first piece last) :
    (Item.label entry).StandsAt items first := by
  rcases h with ⟨code, moves, _, _, rfl⟩
  exact hspan.cons.1

/-- Functions are found with their labels. -/
theorem EntryTable.find?_functions (name : String) : ∀ t : EntryTable,
    t.functions.find? name = (t.find? name).map (·.1)
  | [] => rfl
  | here :: outer => by
      have hhere : findFunction? name (here.map (·.1))
          = (here.reverse.find? (·.1.name == name)).map (·.1) := by
        rw [findFunction?, ← List.map_reverse, List.find?_map]
        rfl
      have hrest := EntryTable.find?_functions name outer
      simp only [EntryTable.functions, List.map_cons, FunctionScopes.find?, hhere, EntryTable.find?]
      cases List.find? (fun q : FunctionDef × Nat => q.1.name == name) here.reverse with
      | none => exact hrest
      | some found => rfl

/-- Where a function that is found comes from. -/
theorem EntryTable.find?_split {name : String} {f : FunctionDef} {entry : Nat} :
    ∀ {t : EntryTable}, t.find? name = some (f, entry) → ∃ inner here outer,
      t = inner ++ here :: outer ∧ (f, entry) ∈ here ∧
      EntryTable.find? name (here :: outer) = some (f, entry)
  | [], h => absurd h (by rintro ⟨⟩)
  | here :: outer, h => by
      have hall := h
      rw [EntryTable.find?] at h
      rcases hfound : here.reverse.find? (·.1.name == name) with _ | found
      · rw [hfound] at h
        rcases EntryTable.find?_split h with ⟨inner, here', outer', rfl, hmem, hfind⟩
        exact ⟨here :: inner, here', outer', rfl, hmem, hfind⟩
      · rw [hfound] at h
        obtain rfl := Option.some.inj h
        exact ⟨[], here, outer, rfl, List.mem_reverse.mp (List.mem_of_find?_eq_some hfound), hall⟩

theorem EntryTable.Placed.suffix {outer : EntryTable} : ∀ {inner : EntryTable},
    EntryTable.Placed d items (inner ++ outer) → EntryTable.Placed d items outer
  | [], h => h
  | _ :: _, h => EntryTable.Placed.suffix h.2

@[simp]
theorem Site.functions_after (k : Site) (s : Stmt) : (k.after s).functions = k.functions := rfl

/-- Nor do lists of statements. -/
@[simp]
theorem Site.functions_afterSeq (k : Site) (stmts : List Stmt) :
    (k.afterSeq stmts).functions = k.functions := by
  induction stmts generalizing k with
  | nil => rfl
  | cons s rest ih => exact ih (k.after s)

@[simp]
theorem Site.afterSeq_cons (k : Site) (s : Stmt) (rest : List Stmt) :
    k.afterSeq (s :: rest) = (k.after s).afterSeq rest := rfl

/-- The stack grows by the variables that are declared. -/
@[simp]
theorem Site.height_afterSeq (k : Site) (stmts : List Stmt) :
    (k.afterSeq stmts).height = k.height + (Stmt.declaredSeq stmts).length := by
  induction stmts generalizing k with
  | nil => rfl
  | cons s rest ih =>
      rw [Site.afterSeq_cons, ih, Stmt.declaredSeq_cons, List.length_append, ← Nat.add_assoc]
      rfl

@[simp]
theorem Site.loop_afterSeq (k : Site) (stmts : List Stmt) : (k.afterSeq stmts).loop = k.loop := by
  induction stmts generalizing k with
  | nil => rfl
  | cons s rest ih => exact ih (k.after s)

/-- Without cases that have a value there are no bodies. -/
theorem Case.CodedBodies.nil {k : Site} {after : Nat} {cases : List Case} {piece : List Item}
    (h : Case.CodedBodies d k after [] cases piece) : piece = [] := by
  rw [Case.CodedBodies] at h
  · exact h
  · simp

/-- The code of a function stands in the code of the statements that define it. -/
theorem Stmt.CodedSeq.function {f : FunctionDef} : ∀ {stmts : List Stmt} {k : Site}
    {piece : List Item} {first last : Nat}, Stmt.CodedSeq d k stmts piece →
      Item.Span items first piece last → f ∈ stmts.filterMap Stmt.function? →
      ∃ entry first piece last, k.functions.Here f entry ∧ f.Coded d k.functions entry piece ∧
        Item.Span items first piece last
  | [], _, _, _, _, _, _, hf => absurd hf List.not_mem_nil
  | s :: rest, k, piece, first, last, h, hspan, hf => by
      rw [Stmt.CodedSeq] at h
      rcases h with ⟨here, later, hs, hrest, rfl⟩
      -- The function is either the first statement or among the rest.
      rcases hspan.append with ⟨middle, hfirst, hlast⟩
      rw [List.filterMap_cons] at hf
      rcases hfun : s.function? with _ | g
      · simp only [hfun] at hf
        exact hrest.function hlast hf
      · simp only [hfun, List.mem_cons] at hf
        rcases hf with rfl | hf
        · -- The function itself.
          cases s with
          | func line name params returns body =>
              obtain rfl := Option.some.inj hfun
              rw [Stmt.Coded] at hs
              rcases hs with ⟨entry, after, code, moves, hhere, hbody, hmoves, rfl⟩
              rcases hfirst.append with ⟨_, hfirst, -⟩
              rcases hfirst.append with ⟨_, -, hcode⟩
              exact ⟨entry, _, _, _, hhere, ⟨code, moves, hbody, hmoves, rfl⟩, hcode⟩
          | _ => exact absurd hfun (by rintro ⟨⟩)
        -- A function further behind.
        · exact hrest.function hlast hf

/-- The functions of a block are where its code is. -/
theorem EntryTable.Placed.enter {k : Site} {stmts : List Stmt} {entry : FunctionDef → Nat}
    {piece : List Item} {first last : Nat} (h : k.functions.Placed d items)
    (hcode : Stmt.CodedSeq d (k.enter stmts entry) stmts piece)
    (hspan : Item.Span items first piece last) :
    (k.enter stmts entry).functions.Placed d items := by
  refine ⟨fun q hq => ?_, h⟩
  rcases List.mem_map.mp hq with ⟨f, hf, rfl⟩
  rcases hcode.function hspan hf with
    ⟨label, first', piece', last', ⟨here, outer, heq, hmem⟩, hf', hspan'⟩
  -- The label is that of the table.
  obtain ⟨rfl, rfl⟩ := List.cons.inj heq
  rcases List.mem_map.mp hmem with ⟨g, _, hg⟩
  obtain ⟨rfl, rfl⟩ := Prod.mk.inj hg
  exact ⟨first', piece', last', hf', hspan'⟩

end Tables

end YulToolchain
