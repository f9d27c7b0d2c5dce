import YulToolchain.Assembly.Disassembly
import YulToolchain.Proofs.Assembly.Layout

/-!
# Decoding Finished Code

Finished code reads back item by item.

The opcode of an item says how many bytes belong to it, so reading from the front meets
exactly the items that were written and steps over every immediate byte, whatever it
is. Nothing depends on what stands behind the items, so the code of an object reads the
same with its attachments and without.

For code to be finished at all its references must resolve. `Assembly.Closed` says that
they do: labels are defined once and attachments exist, all the way down.

## Main definitions

* `Item.Decodes`: What an item is read as.
* `Item.DecodeAll`: What some items are read as, with their offsets.
* `Assembly.size`: The size of the finished code.
* `Assembly.Closed`: All references of an assembly resolve.

## Theorems

* `Instruction.ofOpcode?_opcode`: Opcodes tell instructions apart.
* `decodeFrom_items`: Items read back.
* `Assembly.finish_of_closed`: A closed assembly can be finished.
-/

namespace YulToolchain

/-- What an item is read as, given what references resolve to: its instruction, with
    the bytes that it pushes. -/
def Item.Decodes (l : Layout) : Item → Decoded → Prop
  | .instruction op, x => x = .instruction op []
  | .constant w, x => ∃ k, k.val + 1 = w.byteWidth ∧ x = .instruction (.push k) w.minimalBytes
  | .label _, x => x = .instruction .jumpdest []
  | .reference r, x => ∃ value, l.resolve r = .ok value ∧ value < Item.referenceLimit ∧
      x = .instruction (.push 3) (Word.bytesOfNat Item.referenceWidth value)

/-- What some items are read as, one by one, each at its offset. -/
def Item.DecodeAll (l : Layout) : Nat → List Item → List (Nat × Decoded) → Prop
  | _, [], [] => True
  | offset, i :: items, (position, x) :: rest =>
    position = offset ∧ i.Decodes l x ∧ Item.DecodeAll l (offset + i.size) items rest
  | _, _, _ => False

/-- An item can be finished where some labels are defined and there are some
    attachments, and carries its bytes with it. -/
def Item.Closed (labels : List Nat) (attachments : Nat) : Item → Prop
  | .instruction op => op.isPush = false
  | .constant _ => True
  | .label _ => True
  | .reference (.label id) => id ∈ labels
  | .reference .ownSize => True
  | .reference (.offsetOf id) => id < attachments
  | .reference (.sizeOf id) => id < attachments

mutual

/-- The size of the code that an assembly is finished to. -/
def Assembly.size : Assembly → Nat
  | ⟨items, _, _, _, attachments, _⟩ => Item.sizeAll items.toList + Attached.sizeAll attachments

/-- The size that some attachments have together. -/
def Attached.sizeAll : List Attached → Nat
  | [] => 0
  | .code a :: rest => a.size + Attached.sizeAll rest
  | .data bytes :: rest => bytes.length + Attached.sizeAll rest

end

mutual

/-- No label of an assembly is defined twice, and all items can be finished, here and in
    everything attached. -/
def Assembly.Closed : Assembly → Prop
  | ⟨items, _, _, _, attachments, _⟩ => (definedLabels items.toList).Nodup ∧
      (∀ i ∈ items.toList, i.Closed (definedLabels items.toList) attachments.length) ∧
      Attached.ClosedAll attachments

/-- All assemblies among some attachments are closed. -/
def Attached.ClosedAll : List Attached → Prop
  | [] => True
  | .code a :: rest => a.Closed ∧ Attached.ClosedAll rest
  | .data _ :: rest => Attached.ClosedAll rest

end

section Opcodes

/-- All instructions are in the list of all. -/
theorem Instruction.mem_all (i : Instruction) : i ∈ Instruction.all := by
  cases i with
  | push k => simp [Instruction.all]
  | dup k => simp [Instruction.all]
  | swap k => simp [Instruction.all]
  | log k => simp [Instruction.all]
  | _ => decide

theorem Instruction.all_increasing :
    (Instruction.all.map fun i => i.opcode.toNat).Pairwise (· < ·) :=
  List.isChain_iff_pairwise.mp (by decide +kernel)

/-- Opcodes tell instructions apart. -/
theorem Instruction.ofOpcode?_opcode (i : Instruction) :
    Instruction.ofOpcode? i.opcode = some i := by
  rcases hfound : Instruction.ofOpcode? i.opcode with _ | j
  · exact absurd (beq_self_eq_true i.opcode) (List.find?_eq_none.mp hfound i i.mem_all)
  · have hopcode : j.opcode = i.opcode :=
      eq_of_beq (List.find?_some (p := fun k : Instruction => k.opcode == i.opcode) hfound)
    have hnodup := Instruction.all_increasing.imp Nat.ne_of_lt
    rw [List.inj_on_of_nodup_map hnodup (List.mem_of_find?_eq_some hfound) i.mem_all
      (congrArg UInt8.toNat hopcode)]

/-- The opcode of an instruction that pushes some bytes. -/
theorem Instruction.opcode_push (k : Fin 32) :
    (Instruction.push k).opcode = pushOpcode (k.val + 1) := by
  revert k
  decide

/-- Only pushes are followed by bytes of their own. -/
theorem Instruction.pushSize_of_isPush {i : Instruction} (h : i.isPush = false) :
    i.pushSize = 0 := by
  cases i with
  | push k => exact absurd h Bool.noConfusion
  | _ => rfl

/-- A word takes at most as many bytes as can be pushed. -/
theorem Word.byteWidth_le (w : Word) : w.byteWidth ≤ 32 := by
  have hbits : w.toNat.log2 < 256 := by
    by_cases h : w.toNat = 0
    · rw [h]
      decide
    · exact (Nat.log2_lt h).mpr w.isLt
  rw [Word.byteWidth]
  omega

theorem Word.length_minimalBytes (w : Word) : w.minimalBytes.length = w.byteWidth := by
  rw [Word.minimalBytes, Word.length_bytesOfNat]

end Opcodes

section Reading

/-- An instruction is read with the bytes that it pushes, and reading goes on behind
    them. -/
theorem decodeFrom_instruction (i : Instruction) {immediate : List UInt8}
    (h : immediate.length = i.pushSize) (offset : Nat) (rest : List UInt8) :
    decodeFrom offset (i.opcode :: (immediate ++ rest))
      = (offset, .instruction i immediate)
        :: decodeFrom (offset + (1 + immediate.length)) rest := by
  have hfirst : Decoded.first i.opcode (immediate ++ rest) = .instruction i immediate := by
    rw [Decoded.first, Instruction.ofOpcode?_opcode]
    dsimp only
    rw [← h, List.take_left]
  rw [decodeFrom]
  simp only [hfirst, Decoded.size, Nat.add_sub_cancel_left, List.drop_left]

/-- The bytes of an item are read as the item. -/
theorem Item.bytes_decode {l : Layout} {line : Nat} {i : Item} {bytes : List UInt8}
    {labels : List Nat} {attachments : Nat} (hi : i.Closed labels attachments)
    (h : i.bytes l line = .ok bytes) :
    ∃ x, i.Decodes l x ∧ ∀ offset rest,
      decodeFrom offset (bytes ++ rest) = (offset, x) :: decodeFrom (offset + i.size) rest := by
  have hbytes := (Item.bytes_eq_ok h).2
  -- One case for each kind of item.
  cases i with
  | instruction op =>
      obtain rfl : bytes = [op.opcode] := hbytes
      have hnone : ([] : List UInt8).length = op.pushSize :=
        (Instruction.pushSize_of_isPush hi).symm
      exact ⟨_, rfl, fun offset rest => decodeFrom_instruction op hnone offset rest⟩
  -- A constant is pushed by the push that is as wide as the word.
  | constant w =>
      obtain rfl : bytes = pushOpcode w.byteWidth :: w.minimalBytes := hbytes
      have hle := w.byteWidth_le
      have hpos : 0 < w.byteWidth := Nat.succ_pos _
      have hwidth : w.byteWidth - 1 + 1 = w.byteWidth := by omega
      have hop : pushOpcode w.byteWidth
          = (Instruction.push ⟨w.byteWidth - 1, by omega⟩).opcode := by
        rw [Instruction.opcode_push, hwidth]
      refine ⟨_, ⟨⟨w.byteWidth - 1, by omega⟩, hwidth, rfl⟩, fun offset rest => ?_⟩
      rw [hop, List.cons_append, decodeFrom_instruction, w.length_minimalBytes, Item.size]
      rw [w.length_minimalBytes]
      exact hwidth.symm
  | label id =>
      obtain rfl : bytes = [Instruction.jumpdest.opcode] := hbytes
      have hnone : ([] : List UInt8).length = Instruction.jumpdest.pushSize := rfl
      exact ⟨_, rfl, fun offset rest => decodeFrom_instruction .jumpdest hnone offset rest⟩
  -- A reference is always pushed in four bytes.
  | reference r =>
      rcases hbytes with ⟨value, hvalue, hlt, rfl⟩
      refine ⟨_, ⟨value, hvalue, hlt, rfl⟩, fun offset rest => ?_⟩
      have hop : pushOpcode Item.referenceWidth = (Instruction.push 3).opcode := rfl
      rw [hop, List.cons_append, decodeFrom_instruction, Word.length_bytesOfNat, Item.size]
      exact Word.length_bytesOfNat _ _

/-- Items are read back one by one, whatever stands behind them. -/
theorem decodeFrom_items {l : Layout} {line : Nat} {labels : List Nat} {attachments : Nat}
    {items : List Item} {own : List (List UInt8)}
    (h : List.Forall₂ (fun i b => Item.bytes l line i = .ok b) items own)
    (hclosed : ∀ i ∈ items, i.Closed labels attachments) (offset : Nat) : ∃ entries,
      Item.DecodeAll l offset items entries ∧ ∀ rest,
        decodeFrom offset (own.flatten ++ rest)
          = entries ++ decodeFrom (offset + Item.sizeAll items) rest := by
  induction h generalizing offset with
  | nil => exact ⟨[], trivial, fun _ => rfl⟩
  | @cons i bytes items own h _ ih =>
      rcases Item.bytes_decode (hclosed i List.mem_cons_self) h with ⟨x, hx, hfirst⟩
      rcases ih (fun j hj => hclosed j (List.mem_cons_of_mem _ hj)) (offset + i.size) with
        ⟨entries, hentries, hothers⟩
      refine ⟨(offset, x) :: entries, ⟨rfl, hx, hentries⟩, fun rest => ?_⟩
      rw [List.flatten_cons, List.append_assoc, hfirst, hothers, List.cons_append, Item.sizeAll,
        Nat.add_assoc]

/-- An item that stands at an offset is read there. -/
theorem Item.DecodeAll.mem {l : Layout} : ∀ {items : List Item} {start : Nat}
    {entries : List (Nat × Decoded)}, Item.DecodeAll l start items entries →
      ∀ {offset : Nat} {i : Item}, i.StandsAt items offset →
        ∃ x, (start + offset, x) ∈ entries ∧ i.Decodes l x
  -- The item stands at the front, or behind the first one.
  | j :: items, start, (_, y) :: entries, ⟨hposition, hy, hrest⟩, offset, i, hat => by
      rcases hat with ⟨before, after, hsplit, hsize⟩
      cases before with
      | nil =>
          obtain ⟨rfl, rfl⟩ := List.cons.inj hsplit
          obtain rfl : offset = 0 := hsize.symm
          exact ⟨y, hposition ▸ List.mem_cons_self, hy⟩
      | cons k before =>
          obtain ⟨rfl, rfl⟩ := List.cons.inj hsplit
          rw [Item.sizeAll] at hsize
          rcases hrest.mem ⟨before, after, rfl, rfl⟩ with ⟨x, hx, hdecodes⟩
          refine ⟨x, List.mem_cons_of_mem _ ?_, hdecodes⟩
          rwa [Nat.add_assoc, hsize] at hx
  | [], _, [], _, offset, i, hat => by
      rcases hat with ⟨before, after, hsplit, -⟩
      exact absurd hsplit (by rcases before <;> rintro ⟨⟩)
  | [], _, _ :: _, h, _, _, _ => h.elim
  | _ :: _, _, [], h, _, _, _ => h.elim

end Reading

section Finishing

/-- What it means that an assembly is closed. -/
theorem Assembly.closed_iff {a : Assembly} : a.Closed ↔ (definedLabels a.items.toList).Nodup ∧
    (∀ i ∈ a.items.toList, i.Closed (definedLabels a.items.toList) a.attachments.length) ∧
    Attached.ClosedAll a.attachments := by
  cases a
  rw [Assembly.Closed]

/-- Where an attachment is placed, and that it ends within the whole. -/
theorem exists_placeAttachments : ∀ {sizes : List Nat} (offset : Nat) {id : Nat},
    id < sizes.length → ∃ place, (placeAttachments offset sizes)[id]? = some place ∧
      place.1 + place.2 ≤ offset + sizes.sum
  | [], _, _, h => absurd h (Nat.not_lt_zero _)
  | size :: rest, offset, 0, _ => by
      refine ⟨(offset, size), rfl, ?_⟩
      rw [List.sum_cons]
      omega
  | size :: rest, offset, id + 1, h => by
      rcases exists_placeAttachments (offset + size) (Nat.lt_of_succ_lt_succ h) with
        ⟨place, hplace, hle⟩
      refine ⟨place, hplace, ?_⟩
      rw [List.sum_cons]
      omega

/-- What can be finished resolves to a number within the whole code. -/
theorem Item.exists_bytes {a : Assembly} {parts : List (List UInt8)} {i : Item}
    (hi : i.Closed (definedLabels a.items.toList) parts.length)
    (hsize : (a.layout parts).total < Item.referenceLimit) (line : Nat) :
    ∃ bytes, i.bytes (a.layout parts) line = .ok bytes := by
  -- Whatever a reference leads to lies in the code or at its end, so four bytes are enough.
  have hreference : ∀ (r : Reference) (value : Nat), (a.layout parts).resolve r = .ok value →
      value ≤ (a.layout parts).total →
      ∃ bytes, (Item.reference r).bytes (a.layout parts) line = .ok bytes := by
    intro r value hvalue hle
    rw [Item.bytes, hvalue]
    exact ⟨_, if_pos (Nat.lt_of_le_of_lt hle hsize)⟩
  have htotal : (a.layout parts).total = Item.sizeAll a.items.toList + parts.flatten.length := rfl
  have hparts : parts.flatten.length = (parts.map List.length).sum := List.length_flatten
  have hplaces : ∀ id, id < parts.length → ∃ place,
      (a.layout parts).attachments[id]? = some place ∧
        place.1 + place.2 ≤ (a.layout parts).total := by
    intro id hid
    rw [htotal, hparts]
    exact exists_placeAttachments _ (by rwa [List.length_map])
  cases i with
  | instruction op => exact ⟨_, rfl⟩
  | constant w => exact ⟨_, rfl⟩
  | label id => exact ⟨_, rfl⟩
  | reference r =>
      cases r with
      | label id =>
          rcases exists_labelPositions 0 hi with ⟨position, hposition⟩
          rcases labelPositions_standsAt hposition with ⟨offset, rfl, hat⟩
          have hle := hat.le_sizeAll
          refine hreference _ (0 + offset) ?_ (by omega)
          have hlookup : (a.layout parts).labels.lookup id = some (0 + offset) := hposition
          rw [Layout.resolve, hlookup]
      | ownSize => exact hreference _ _ rfl (Nat.le_refl _)
      | offsetOf id =>
          rcases hplaces id hi with ⟨⟨offset, size⟩, hplace, hle⟩
          refine hreference _ offset ?_ (by dsimp only at hle; omega)
          rw [Layout.resolve, hplace]
      | sizeOf id =>
          rcases hplaces id hi with ⟨⟨offset, size⟩, hplace, hle⟩
          refine hreference _ size ?_ (by dsimp only at hle; omega)
          rw [Layout.resolve, hplace]

/-- What succeeds for all elements succeeds for the list. -/
theorem exists_mapM {ε α β : Type} {f : α → Except ε β} : ∀ {as : List α},
    (∀ a ∈ as, ∃ b, f a = .ok b) → ∃ bs, as.mapM f = .ok bs
  | [], _ => ⟨[], rfl⟩
  | a :: as, h => by
      rcases h a List.mem_cons_self with ⟨b, hb⟩
      rcases exists_mapM fun a' ha' => h a' (List.mem_cons_of_mem _ ha') with ⟨bs, hbs⟩
      exact ⟨b :: bs, mapM_eq_ok.mpr (.cons hb (mapM_eq_ok.mp hbs))⟩

mutual

/-- A closed assembly whose size fits into a reference can be finished. -/
theorem Assembly.finish_of_closed : ∀ {a : Assembly}, a.Closed → a.size < Item.referenceLimit →
    ∃ code, a.finish = .ok code ∧ code.length = a.size
  | ⟨items, height, lastLabel, named, attachments, line⟩, h, hsize => by
      rw [Assembly.Closed] at h
      rcases h with ⟨hnodup, hitems, hattached⟩
      rw [Assembly.size] at hsize
      rcases Attached.finishAll_of_closed hattached (by omega) with ⟨parts, hparts, hlength, hall⟩
      rw [← hlength] at hitems
      have hbytes := exists_mapM fun i hi => Item.exists_bytes
        (a := ⟨items, height, lastLabel, named, attachments, line⟩) (hitems i hi)
        (show Item.sizeAll items.toList + parts.flatten.length < _ by omega) line
      rcases hbytes with ⟨own, hown⟩
      refine ⟨own.flatten ++ parts.flatten,
        Assembly.finish_eq_ok.mpr ⟨hnodup, parts, hparts, own, hown, rfl⟩, ?_⟩
      rw [List.length_append, length_flatten_bytes (mapM_eq_ok.mp hown), hall, Assembly.size]

/-- Attachments that are closed and not too large are assembled, and have the size that was
    computed. -/
theorem Attached.finishAll_of_closed : ∀ {attachments : List Attached},
    Attached.ClosedAll attachments → Attached.sizeAll attachments < Item.referenceLimit →
    ∃ parts, Attached.finishAll attachments = .ok parts ∧ parts.length = attachments.length ∧
      parts.flatten.length = Attached.sizeAll attachments
  | [], _, _ => ⟨[], rfl, rfl, rfl⟩
  | .code a :: rest, h, hsize => by
      rw [Attached.ClosedAll] at h
      rw [Attached.sizeAll] at hsize
      rcases Assembly.finish_of_closed h.1 (by omega) with ⟨code, hcode, hlength⟩
      rcases Attached.finishAll_of_closed h.2 (by omega) with ⟨parts, hparts, hcount, hall⟩
      refine ⟨code :: parts, ?_, congrArg Nat.succ hcount, ?_⟩
      · rw [Attached.finishAll, hcode, hparts]
        rfl
      · rw [List.flatten_cons, List.length_append, hlength, hall, Attached.sizeAll]
  | .data bytes :: rest, h, hsize => by
      rw [Attached.ClosedAll] at h
      rw [Attached.sizeAll] at hsize
      rcases Attached.finishAll_of_closed h (by omega) with ⟨parts, hparts, hcount, hall⟩
      refine ⟨bytes :: parts, ?_, congrArg Nat.succ hcount, ?_⟩
      · rw [Attached.finishAll, hparts]
        rfl
      · rw [List.flatten_cons, List.length_append, hall, Attached.sizeAll]

end

end Finishing

end YulToolchain
