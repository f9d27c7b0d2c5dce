import YulToolchain.Assembly
import YulToolchain.Proofs.Machine.Arithmetic
import YulToolchain.Proofs.Static.Resolved

/-!
# The Layout of Finished Code

Where the items of an assembly end up in its bytes, and what its references hold.

An item takes the same number of bytes whatever references resolve to, so its offset
is the size of the items before it, and a reference is the only item whose bytes are
not known when it is written. `Item.draft` gives the bytes that are. Finishing an
assembly puts the bytes of the items one behind the other and the attachments behind
them, so all that is left to say about the result is said item by item.

## Main definitions

* `Item.StandsAt`: An item stands at an offset of some items.
* `Item.draft`: The bytes of an item before references are resolved.
* `definedLabels`: The labels that some items define.
* `Assembly.layout`: What the references of an assembly resolve to.
* `Reference.Denotes`: The number that a reference stands for.
* `Item.Written`: The bytes of an item at an offset of the finished code.

## Theorems

* `Assembly.finish_eq_ok`: When an assembly can be finished, and what it gives.
* `duplicateLabel?_eq_none`: No label is defined twice.
* `labelPositions_standsAt`: Positions of labels are offsets of labels.
* `Layout.resolve_denotes`: References resolve to what they stand for.
* `Assembly.finish_written`: All items of a finished assembly.
-/

namespace YulToolchain

/-- An item stands at an offset: the items before it take as many bytes. -/
def Item.StandsAt (items : List Item) (offset : Nat) (i : Item) : Prop :=
  ∃ before after, items = before ++ i :: after ∧ Item.sizeAll before = offset

/-- The bytes of an item as it is written. A reference holds zeros until all sizes
    are known. -/
def Item.draft : Item → List UInt8
  | .instruction i => [i.opcode]
  | .constant w => pushOpcode w.byteWidth :: w.minimalBytes
  | .label _ => [Instruction.jumpdest.opcode]
  | .reference _ => pushOpcode Item.referenceWidth :: List.replicate Item.referenceWidth 0

/-- The label that an item defines. -/
def Item.label? : Item → Option Nat
  | .label id => some id
  | _ => none

/-- The labels that some items define, in order. -/
def definedLabels (items : List Item) : List Nat := items.filterMap Item.label?

/-- What the references of an assembly resolve to, given the bytes of its
    attachments. -/
def Assembly.layout (a : Assembly) (parts : List (List UInt8)) : Layout where
  labels := labelPositions 0 a.items.toList
  attachments := placeAttachments (Item.sizeAll a.items.toList) (parts.map List.length)
  total := Item.sizeAll a.items.toList + parts.flatten.length

/-- The number that a reference among some items stands for, in code that ends with
    some attachments. -/
def Reference.Denotes (items : List Item) (parts : List (List UInt8)) (code : List UInt8)
    (value : Nat) : Reference → Prop
  | .label id => Item.StandsAt items value (.label id) ∧
      ∀ offset, Item.StandsAt items offset (.label id) → offset = value
  | .ownSize => value = code.length
  | .offsetOf id => value = Item.sizeAll items + (parts.take id).flatten.length ∧
      ∃ part, parts[id]? = some part ∧ (code.drop value).take part.length = part
  | .sizeOf id => ∃ part, parts[id]? = some part ∧ value = part.length

/-- The bytes of an item at an offset of the finished code: those it was written with,
    or the number that a reference stands for behind the opcode of its push. -/
def Item.Written (items : List Item) (parts : List (List UInt8)) (code : List UInt8)
    (offset : Nat) : Item → Prop
  | .reference r => ∃ value, r.Denotes items parts code value ∧ value < Item.referenceLimit ∧
      (code.drop offset).take (Item.reference r).size
        = pushOpcode Item.referenceWidth :: Word.bytesOfNat Item.referenceWidth value
  | i => (code.drop offset).take i.size = i.draft

section Sizes

/-- A draft is as long as the item will be. -/
@[simp]
theorem Item.length_draft (i : Item) : i.draft.length = i.size := by
  cases i with
  | instruction i => rfl
  | constant w =>
      simp only [draft, size, Word.minimalBytes, List.length_cons, Word.length_bytesOfNat]
      omega
  | label id => rfl
  | reference r => rfl

theorem Item.size_pos (i : Item) : 0 < i.size := by
  cases i <;> simp only [size] <;> omega

/-- Sizes of lists add up. -/
@[simp]
theorem Item.sizeAll_append (items more : List Item) :
    Item.sizeAll (items ++ more) = Item.sizeAll items + Item.sizeAll more := by
  induction items with
  | nil => simp only [List.nil_append, sizeAll, Nat.zero_add]
  | cons i rest ih =>
      simp only [List.cons_append, sizeAll, ih]
      omega

/-- An item that stands at an offset ends within the items. -/
theorem Item.StandsAt.le_sizeAll {items : List Item} {offset : Nat} {i : Item}
    (h : i.StandsAt items offset) : offset + i.size ≤ Item.sizeAll items := by
  rcases h with ⟨before, after, rfl, rfl⟩
  rw [Item.sizeAll_append, Item.sizeAll]
  omega

/-- What stands somewhere in the list is in the list. -/
theorem Item.StandsAt.mem {items : List Item} {offset : Nat} {i : Item}
    (h : i.StandsAt items offset) : i ∈ items := by
  rcases h with ⟨before, after, rfl, rfl⟩
  exact List.mem_append_right _ List.mem_cons_self

theorem Item.StandsAt.cons {items : List Item} {offset : Nat} {i : Item}
    (h : i.StandsAt items offset) (j : Item) : i.StandsAt (j :: items) (j.size + offset) := by
  rcases h with ⟨before, after, rfl, rfl⟩
  exact ⟨j :: before, after, rfl, rfl⟩

end Sizes

section Labels

/-- The labels are those of the label items. -/
theorem mem_definedLabels {items : List Item} {id : Nat} :
    id ∈ definedLabels items ↔ Item.label id ∈ items := by
  rw [definedLabels, List.mem_filterMap]
  constructor
  · rintro ⟨i, hi, hid⟩
    cases i with
    | label id' =>
        obtain rfl := Option.some.inj hid
        exact hi
    | _ => exact absurd hid (by rintro ⟨⟩)
  · exact fun h => ⟨_, h, rfl⟩

@[simp]
theorem definedLabels_append (items more : List Item) :
    definedLabels (items ++ more) = definedLabels items ++ definedLabels more :=
  List.filterMap_append

/-- No label is defined twice. -/
theorem duplicateLabel?_eq_none : ∀ {items : List Item} {seen : List Nat},
    duplicateLabel? seen items = none ↔
      (definedLabels items).Nodup ∧ ∀ id ∈ definedLabels items, id ∉ seen
  | [], seen => by
      simp only [duplicateLabel?, definedLabels, List.filterMap_nil, List.nodup_nil,
        List.not_mem_nil, false_implies, implies_true, and_self]
  | .label id :: rest, seen => by
      have hlabels : definedLabels (.label id :: rest) = id :: definedLabels rest := rfl
      rw [duplicateLabel?, hlabels, List.nodup_cons, List.forall_mem_cons]
      -- The label has been seen, is defined later, or neither.
      by_cases hid : id ∈ seen
      · rw [if_pos (List.contains_iff_mem.mpr hid)]
        constructor
        · intro hc
          exact absurd hc (by rintro ⟨⟩)
        · exact fun h => absurd hid h.2.1
      · rw [if_neg (fun hc => hid (List.contains_iff_mem.mp hc)), duplicateLabel?_eq_none]
        simp only [List.mem_cons, not_or]
        constructor
        · rintro ⟨hnodup, hseen⟩
          exact ⟨⟨fun hc => (hseen id hc).1 rfl, hnodup⟩, hid, fun x hx => (hseen x hx).2⟩
        · rintro ⟨⟨hfresh, hnodup⟩, _, hseen⟩
          exact ⟨hnodup, fun x hx => ⟨fun hc => hfresh (hc ▸ hx), hseen x hx⟩⟩
  -- Other items define no labels.
  | .instruction _ :: rest, seen => @duplicateLabel?_eq_none rest seen
  | .constant _ :: rest, seen => @duplicateLabel?_eq_none rest seen
  | .reference _ :: rest, seen => @duplicateLabel?_eq_none rest seen

/-- The position of a label is its offset. -/
theorem labelPositions_standsAt {id : Nat} : ∀ {items : List Item} {start position : Nat},
    (labelPositions start items).lookup id = some position →
      ∃ offset, position = start + offset ∧ (Item.label id).StandsAt items offset
  | [], start, position, h => absurd h (by rintro ⟨⟩)
  | i :: rest, start, position, h => by
      -- Behind the first item everything stands further back by its size.
      have hrest : (labelPositions (start + i.size) rest).lookup id = some position →
          ∃ offset, position = start + offset ∧ (Item.label id).StandsAt (i :: rest) offset := by
        intro h
        rcases labelPositions_standsAt h with ⟨offset, rfl, hat⟩
        exact ⟨i.size + offset, Nat.add_assoc _ _ _, hat.cons i⟩
      cases i with
      | label id' =>
          rw [labelPositions, List.lookup_cons] at h
          by_cases hid : id = id'
          · subst hid
            rw [beq_self_eq_true] at h
            obtain rfl := Option.some.inj h
            exact ⟨0, rfl, [], rest, rfl, rfl⟩
          · rw [beq_eq_false_iff_ne.mpr hid] at h
            exact hrest h
      | _ => exact hrest h

/-- A label that is defined has a position. -/
theorem exists_labelPositions {id : Nat} : ∀ {items : List Item} (start : Nat),
    id ∈ definedLabels items → ∃ position, (labelPositions start items).lookup id = some position
  | [], start, h => absurd h List.not_mem_nil
  | .label id' :: rest, start, h => by
      rw [labelPositions, List.lookup_cons]
      by_cases hid : id = id'
      · exact ⟨start, by rw [beq_iff_eq.mpr hid]⟩
      · rw [beq_eq_false_iff_ne.mpr hid]
        exact exists_labelPositions _ ((List.mem_cons.mp h).resolve_left hid)
  | .instruction _ :: rest, start, h => @exists_labelPositions id rest _ h
  | .constant _ :: rest, start, h => @exists_labelPositions id rest _ h
  | .reference _ :: rest, start, h => @exists_labelPositions id rest _ h

/-- A label that is defined once stands at one offset only. -/
theorem Item.StandsAt.label_unique {items : List Item} (hnodup : (definedLabels items).Nodup)
    {id offset offset' : Nat} (h : (Item.label id).StandsAt items offset)
    (h' : (Item.label id).StandsAt items offset') : offset' = offset := by
  rcases h with ⟨before, after, rfl, rfl⟩
  rcases h' with ⟨before', after', heq, rfl⟩
  have hsplit : definedLabels (before ++ Item.label id :: after)
      = definedLabels before ++ id :: definedLabels after := by
    rw [definedLabels_append]
    rfl
  have hcount : id ∉ definedLabels before ∧ id ∉ definedLabels after := by
    rw [hsplit, List.nodup_middle, List.nodup_cons, List.mem_append, not_or] at hnodup
    exact hnodup.1
  -- Either the two places are the same, or the label is defined twice.
  rw [List.append_eq_append_iff] at heq
  rcases heq with ⟨between, rfl, hafter⟩ | ⟨between, rfl, hafter⟩
  · rcases between with _ | ⟨i, between⟩
    · rw [List.append_nil]
    · -- The second definition would stand behind the first.
      rw [List.cons_append, List.cons.injEq] at hafter
      refine absurd (mem_definedLabels.mpr ?_) hcount.2
      rw [hafter.2]
      exact List.mem_append_right _ List.mem_cons_self
  -- The first definition would stand behind the second.
  · rcases between with _ | ⟨i, between⟩
    · rw [List.append_nil]
    · rw [List.cons_append, List.cons.injEq] at hafter
      refine absurd (mem_definedLabels.mpr ?_) hcount.1
      rw [← hafter.1]
      exact List.mem_append_right _ List.mem_cons_self

end Labels

section Finishing

/-- When an assembly can be finished, and what the result consists of. -/
theorem Assembly.finish_eq_ok {a : Assembly} {code : List UInt8} :
    a.finish = .ok code ↔ (definedLabels a.items.toList).Nodup ∧
      ∃ parts, Attached.finishAll a.attachments = .ok parts ∧
      ∃ own, a.items.toList.mapM (Item.bytes (a.layout parts) a.line) = .ok own ∧
        code = own.flatten ++ parts.flatten := by
  rcases a with ⟨items, height, lastLabel, named, attachments, line⟩
  simp only [Assembly.finish, Assembly.layout]
  -- Either a label is defined twice, which is the only fault of its own, or the parts decide.
  rcases hdup : duplicateLabel? [] items.toList with _ | id
  · have hnodup := (duplicateLabel?_eq_none.mp hdup).1
    constructor
    -- The parts are finished first.
    · intro h
      rcases bind_eq_ok h with ⟨parts, hparts, h⟩
      rcases bind_eq_ok h with ⟨own, hown, h⟩
      refine ⟨hnodup, parts, ?_, own, hown, (Except.ok.inj h).symm⟩
      rcases hall : Attached.finishAll attachments with e | parts'
      · rw [hall] at hparts
        exact absurd hparts (by rintro ⟨⟩)
      · rw [hall] at hparts
        exact congrArg Except.ok (Except.ok.inj hparts)
    · rintro ⟨_, parts, hparts, own, hown, rfl⟩
      have hwithin : within "While finalizing sub-assemblies" (Attached.finishAll attachments)
          = .ok parts := by rw [hparts]; rfl
      rw [hwithin]
      exact congrArg (· >>= fun own : List (List UInt8) =>
        (.ok (own.flatten ++ parts.flatten) : Except Failure (List UInt8))) hown
  -- With a label defined twice both sides fail.
  · constructor
    · intro h
      exact absurd h (by rintro ⟨⟩)
    · rintro ⟨hnodup, _⟩
      have hnone := duplicateLabel?_eq_none.mpr ⟨hnodup, fun id _ => List.not_mem_nil⟩
      rw [hdup] at hnone
      exact absurd hnone (by rintro ⟨⟩)

/-- The bytes of an item, if there are any. -/
theorem Item.bytes_eq_ok {l : Layout} {line : Nat} {i : Item} {bytes : List UInt8}
    (h : i.bytes l line = .ok bytes) :
    bytes.length = i.size ∧ match i with
      | .reference r => ∃ value, l.resolve r = .ok value ∧ value < Item.referenceLimit ∧
          bytes = pushOpcode Item.referenceWidth :: Word.bytesOfNat Item.referenceWidth value
      | i => bytes = i.draft := by
  cases i with
  -- References are the only items that can fail: their value may not fit.
  | reference r =>
      rw [Item.bytes] at h
      rcases bind_eq_ok h with ⟨value, hvalue, h⟩
      rcases hr : l.resolve r with e | value'
      · rw [hr] at hvalue
        exact absurd hvalue (by rintro ⟨⟩)
      · rw [hr] at hvalue
        obtain rfl : value' = value := Except.ok.inj hvalue
        by_cases hlt : value' < Item.referenceLimit
        · rw [if_pos hlt] at h
          obtain rfl := Except.ok.inj h
          refine ⟨?_, value', hr, hlt, rfl⟩
          simp only [List.length_cons, Word.length_bytesOfNat, Item.size]
          omega
        · rw [if_neg hlt] at h
          exact absurd h (by rintro ⟨⟩)
  | instruction op =>
      obtain rfl := Except.ok.inj h
      exact ⟨rfl, rfl⟩
  | constant w =>
      obtain rfl := Except.ok.inj h
      exact ⟨Item.length_draft (.constant w), rfl⟩
  | label id =>
      obtain rfl := Except.ok.inj h
      exact ⟨rfl, rfl⟩

/-- What is computed for each element of a list, if it can be computed for all. -/
theorem mapM_eq_ok {ε α β : Type} {f : α → Except ε β} : ∀ {as : List α} {bs : List β},
    as.mapM f = .ok bs ↔ List.Forall₂ (fun a b => f a = .ok b) as bs
  | [], bs => by
      rw [List.mapM_nil]
      constructor
      · intro h
        obtain rfl := Except.ok.inj h
        exact .nil
      · rintro ⟨⟩
        rfl
  | a :: as, bs => by
      rw [List.mapM_cons]
      constructor
      -- A list that succeeds has a first element that does.
      · intro h
        rcases bind_eq_ok h with ⟨b, hb, h⟩
        rcases bind_eq_ok h with ⟨bs', hbs, h⟩
        obtain rfl := Except.ok.inj h
        exact .cons hb (mapM_eq_ok.mp hbs)
      · intro h
        cases h with
        | cons hb hbs =>
            rw [hb, show as.mapM f = .ok _ from mapM_eq_ok.mpr hbs]
            rfl

/-- The bytes of items in a row have the size of the items. -/
theorem length_flatten_bytes {l : Layout} {line : Nat} : ∀ {items : List Item}
    {own : List (List UInt8)}, List.Forall₂ (fun i b => Item.bytes l line i = .ok b) items own →
      own.flatten.length = Item.sizeAll items
  | _, _, .nil => rfl
  | _, _, .cons h hrest => by
      rw [List.flatten_cons, List.length_append, (Item.bytes_eq_ok h).1,
        length_flatten_bytes hrest, Item.sizeAll]

/-- The bytes of an item are found at its offset. -/
theorem Item.StandsAt.bytes {l : Layout} {line : Nat} {items : List Item}
    {own : List (List UInt8)} (h : List.Forall₂ (fun i b => Item.bytes l line i = .ok b) items own)
    {offset : Nat} {i : Item} (hat : i.StandsAt items offset) (rest : List UInt8) :
    ∃ bytes, i.bytes l line = .ok bytes ∧
      ((own.flatten ++ rest).drop offset).take i.size = bytes := by
  -- Splits the list of bytes where the list of items is split.
  rcases hat with ⟨before, after, rfl, rfl⟩
  have hfirst := (List.forall₂_take_append own before (i :: after) h.flip).flip
  have hsecond := (List.forall₂_drop_append own before (i :: after) h.flip).flip
  rw [← List.take_append_drop before.length own]
  generalize own.take before.length = first at hfirst
  generalize own.drop before.length = second at hsecond
  -- The bytes of the item are the first ones of the second part.
  cases hsecond with
  | cons hi hafter =>
      rename_i bytes tail
      refine ⟨bytes, hi, ?_⟩
      rw [List.flatten_append, List.flatten_cons, List.append_assoc,
        ← length_flatten_bytes hfirst, List.drop_left, ← (Item.bytes_eq_ok hi).1,
        List.append_assoc, List.take_left]

/-- Where an attachment is placed. -/
theorem getElem?_placeAttachments : ∀ {sizes : List Nat} {offset id : Nat} {place : Nat × Nat},
    (placeAttachments offset sizes)[id]? = some place →
      place.1 = offset + (sizes.take id).sum ∧ sizes[id]? = some place.2
  | [], offset, id, place, h => absurd h (by rw [placeAttachments]; rintro ⟨⟩)
  | size :: rest, offset, 0, place, h => by
      rw [placeAttachments, List.getElem?_cons_zero] at h
      obtain rfl := Option.some.inj h
      exact ⟨rfl, rfl⟩
  | size :: rest, offset, id + 1, place, h => by
      rw [placeAttachments, List.getElem?_cons_succ] at h
      rcases getElem?_placeAttachments h with ⟨hplace, hsize⟩
      rw [List.take_succ_cons, List.sum_cons, List.getElem?_cons_succ]
      exact ⟨by rw [hplace]; omega, hsize⟩

/-- The part with a number stands behind the parts before it. -/
theorem slice_flatten {parts : List (List UInt8)} {id : Nat} {part : List UInt8}
    (h : parts[id]? = some part) (own : List UInt8) :
    ((own ++ parts.flatten).drop (own.length + (parts.take id).flatten.length)).take part.length
      = part := by
  rcases List.getElem?_eq_some_iff.mp h with ⟨hid, rfl⟩
  have hsplit : parts.flatten
      = (parts.take id).flatten ++ (parts[id] ++ (parts.drop (id + 1)).flatten) := by
    rw [← List.flatten_cons, ← List.flatten_append, ← List.drop_eq_getElem_cons hid,
      List.take_append_drop]
  rw [hsplit, ← List.append_assoc, ← List.length_append, List.drop_left, List.take_left]

/-- A reference resolves to what it stands for. -/
theorem Layout.resolve_denotes {a : Assembly} {parts : List (List UInt8)} {own : List UInt8}
    (hnodup : (definedLabels a.items.toList).Nodup)
    (hsize : own.length = Item.sizeAll a.items.toList) {r : Reference} {value : Nat}
    (h : (a.layout parts).resolve r = .ok value) :
    r.Denotes a.items.toList parts (own ++ parts.flatten) value := by
  -- One case for each kind of reference: a label is found in the list of positions.
  cases r with
  | label id =>
      rw [Layout.resolve] at h
      rcases hpos : (a.layout parts).labels.lookup id with _ | position
      · rw [hpos] at h
        exact absurd h (by rintro ⟨⟩)
      · rw [hpos] at h
        obtain rfl := Except.ok.inj h
        rcases labelPositions_standsAt hpos with ⟨offset, rfl, hat⟩
        rw [Nat.zero_add]
        exact ⟨hat, fun offset' hat' => hat.label_unique hnodup hat'⟩
  | ownSize =>
      obtain rfl := Except.ok.inj h
      rw [Reference.Denotes, List.length_append, hsize]
      rfl
  -- The offset is behind the own code and the attachments in front.
  | offsetOf id =>
      rw [Layout.resolve] at h
      rcases hplace : (a.layout parts).attachments[id]? with _ | ⟨offset, size⟩
      · rw [hplace] at h
        exact absurd h (by rintro ⟨⟩)
      · rw [hplace] at h
        obtain rfl := Except.ok.inj h
        rcases getElem?_placeAttachments hplace with ⟨hoffset, hpart⟩
        rw [List.getElem?_map] at hpart
        rcases Option.map_eq_some_iff.mp hpart with ⟨part, hpart, -⟩
        have hbefore : offset = Item.sizeAll a.items.toList + (parts.take id).flatten.length := by
          rw [List.length_flatten, List.map_take]
          exact hoffset
        refine ⟨hbefore, part, hpart, ?_⟩
        rw [hbefore, ← hsize]
        exact slice_flatten hpart own
  -- The size is that of the attachment with the number.
  | sizeOf id =>
      rw [Layout.resolve] at h
      rcases hplace : (a.layout parts).attachments[id]? with _ | ⟨offset, size⟩
      · rw [hplace] at h
        exact absurd h (by rintro ⟨⟩)
      · rw [hplace] at h
        obtain rfl := Except.ok.inj h
        rcases getElem?_placeAttachments hplace with ⟨-, hpart⟩
        rw [List.getElem?_map] at hpart
        rcases Option.map_eq_some_iff.mp hpart with ⟨part, hfound, hlength⟩
        exact ⟨part, hfound, hlength.symm⟩

/-- The bytes of a finished assembly are those of its items, with all references
    resolved, and the attachments behind them. -/
theorem Assembly.finish_written {a : Assembly} {code : List UInt8} (h : a.finish = .ok code) :
    ∃ own parts, Attached.finishAll a.attachments = .ok parts ∧ code = own ++ parts.flatten ∧
      own.length = Item.sizeAll a.items.toList ∧
      ∀ offset i, Item.StandsAt a.items.toList offset i →
        i.Written a.items.toList parts code offset := by
  rcases Assembly.finish_eq_ok.mp h with ⟨hnodup, parts, hparts, own, hown, rfl⟩
  have hown := mapM_eq_ok.mp hown
  have hsize := length_flatten_bytes hown
  refine ⟨own.flatten, parts, hparts, rfl, hsize, fun offset i hat => ?_⟩
  rcases hat.bytes hown parts.flatten with ⟨bytes, hbytes, hslice⟩
  have hcases := (Item.bytes_eq_ok hbytes).2
  -- A reference is written by its value, everything else as it is drafted.
  cases i with
  | reference r =>
      rcases hcases with ⟨value, hvalue, hlt, heq⟩
      exact ⟨value, Layout.resolve_denotes hnodup hsize hvalue, hlt, hslice.trans heq⟩
  | instruction op => exact hslice.trans hcases
  | constant w => exact hslice.trans hcases
  | label id => exact hslice.trans hcases

end Finishing

end YulToolchain
