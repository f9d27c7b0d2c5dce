import YulToolchain.Proofs.Assembly.Jumps
import YulToolchain.Proofs.Bytecode.Machine

/-!
# Running Items

Steps of the machine in terms of the items that finished code was made from.

Code that consists of the bytes of some items and of whatever follows them is read item
by item as long as the position is that of an item. So a step at an item does what the
item stands for: constants are pushed, a reference to a label pushes a word that points
to the one place where the label stands, and a jump to such a word goes there. Nothing
is said of steps behind the items, where attachments may stand.

Pieces of code are lists of items. `Item.Span` says that a piece stands between two
positions, and splits as the piece does.

## Main definitions

* `Bytecode.Loaded`: Code starts with the bytes of some items.
* `Bytecode.Points`: A word that a jump can go by.
* `Item.Span`: Items stand one behind the other between two positions.

## Theorems

* `Assembly.Closed.loaded`: The own code of a finished assembly is loaded.
* `Bytecode.Loaded.step_constant`, `Bytecode.Loaded.step_reference` and the others: Steps
  at items.
-/

namespace YulToolchain

open Bytecode

/-- Items stand one behind the other between two positions. -/
def Item.Span (items : List Item) (first : Nat) (piece : List Item) (last : Nat) : Prop :=
  ∃ before after, items = before ++ piece ++ after ∧ Item.sizeAll before = first ∧
    first + Item.sizeAll piece = last

/-- Code starts with the bytes of some items, whatever follows. -/
structure Bytecode.Loaded (items : List Item) (code : List UInt8) : Prop where
  unique : (definedLabels items).Nodup
  instruction : ∀ offset op, (Item.instruction op).StandsAt items offset →
    fetch code offset = some (.instruction op []) ∧ op.pushSize = 0
  constant : ∀ offset w, (Item.constant w).StandsAt items offset → ∃ k : Fin 32,
    k.val + 1 = w.byteWidth ∧ fetch code offset = some (.instruction (.push k) w.minimalBytes)
  label : ∀ offset id, (Item.label id).StandsAt items offset →
    isLabel code offset = true ∧ fetch code offset = some (.instruction .jumpdest [])
  reference : ∀ offset r, (Item.reference r).StandsAt items offset → ∃ value,
    value < Item.referenceLimit ∧
    fetch code offset
      = some (.instruction (.push 3) (Word.bytesOfNat Item.referenceWidth value)) ∧
    ∀ id, r = .label id → (Item.label id).StandsAt items value

/-- A word holds the position of a label. -/
def Bytecode.Points (code : List UInt8) (w : Word) (position : Nat) : Prop :=
  w.toNat = position ∧ isLabel code position = true

section Bytes

theorem Word.natOfBytes_append (bytes : List UInt8) (b : UInt8) :
    Word.natOfBytes (bytes ++ [b]) = Word.natOfBytes bytes * 256 + b.toNat := by
  simp only [Word.natOfBytes, List.foldl_append, List.foldl_cons, List.foldl_nil]

/-- The lowest bytes of a number hold it, if it is small enough. -/
theorem Word.natOfBytes_bytesOfNat : ∀ (count n : Nat), n < 256 ^ count →
    Word.natOfBytes (Word.bytesOfNat count n) = n
  | 0, n, h => by
      obtain rfl : n = 0 := by simpa only [Nat.pow_zero, Nat.lt_one_iff] using h
      rfl
  | count + 1, n, h => by
      have hrest : n / 256 < 256 ^ count := by
        rw [Nat.div_lt_iff_lt_mul (by decide), ← Nat.pow_succ]
        exact h
      have hbyte : (UInt8.ofNat (n % 256)).toNat = n % 256 := by
        rw [UInt8.toNat_ofNat']
        exact Nat.mod_mod n 256
      rw [Word.bytesOfNat, Word.natOfBytes_append, Word.natOfBytes_bytesOfNat count _ hrest, hbyte]
      omega

/-- The fewest bytes of a word hold the word. -/
theorem Word.ofBytes_minimalBytes (w : Word) : Word.ofBytes w.minimalBytes = w := by
  have hlt : w.toNat < 256 ^ w.byteWidth := by
    have hlog : w.toNat < 2 ^ (w.toNat.log2 + 1) := Nat.lt_log2_self
    have hpow : 2 ^ (w.toNat.log2 + 1) ≤ 2 ^ (8 * w.byteWidth) := by
      refine Nat.pow_le_pow_right (by decide) ?_
      rw [Word.byteWidth]
      omega
    rw [Nat.pow_mul] at hpow
    exact Nat.lt_of_lt_of_le hlog hpow
  rw [Word.minimalBytes, Word.ofBytes, Word.natOfBytes_bytesOfNat _ _ hlt]
  exact (BitVec.ofNat_toNat 256 w).trans (BitVec.setWidth_eq w)

end Bytes

section Spans

variable {items : List Item} {first last : Nat}

theorem Item.Span.whole (items : List Item) : Item.Span items 0 items (Item.sizeAll items) :=
  ⟨[], [], by simp only [List.nil_append, List.append_nil], rfl, Nat.zero_add _⟩

theorem Item.Span.nil (h : Item.Span items first [] last) : last = first := by
  rcases h with ⟨_, _, _, _, hlast⟩
  exact hlast.symm

/-- A piece of two parts has a position between them. -/
theorem Item.Span.append {piece more : List Item} (h : Item.Span items first (piece ++ more) last) :
    ∃ middle, Item.Span items first piece middle ∧ Item.Span items middle more last := by
  rcases h with ⟨before, after, rfl, rfl, rfl⟩
  refine ⟨Item.sizeAll before + Item.sizeAll piece, ⟨before, more ++ after, ?_, rfl, rfl⟩,
    before ++ piece, after, ?_, ?_, ?_⟩
  · simp only [List.append_assoc]
  · simp only [List.append_assoc]
  · rw [Item.sizeAll_append]
  · rw [Item.sizeAll_append]
    omega

/-- The first item of a piece stands where the piece starts. -/
theorem Item.Span.cons {i : Item} {piece : List Item}
    (h : Item.Span items first (i :: piece) last) :
    i.StandsAt items first ∧ Item.Span items (first + i.size) piece last := by
  rcases h with ⟨before, after, rfl, rfl, rfl⟩
  refine ⟨⟨before, piece ++ after, ?_, rfl⟩, before ++ [i], after, ?_, ?_, ?_⟩
  · simp only [List.append_assoc, List.cons_append]
  · simp only [List.append_assoc, List.cons_append, List.nil_append]
  · rw [Item.sizeAll_append]
    rfl
  · rw [Item.sizeAll]
    omega

end Spans

/-- What an item is read as is found at its offset. -/
theorem Item.StandsAt.fetch {l : Layout} {line : Nat} {items : List Item} {labels : List Nat}
    {attachments : Nat} {own : List (List UInt8)}
    (h : List.Forall₂ (fun i b => Item.bytes l line i = .ok b) items own) {offset : Nat} {i : Item}
    (hat : i.StandsAt items offset) (hi : i.Closed labels attachments) (rest : List UInt8) :
    ∃ x, i.Decodes l x ∧ fetch (own.flatten ++ rest) offset = some x := by
  rcases hat.bytes h rest with ⟨bytes, hbytes, hslice⟩
  rcases Item.bytes_decode hi hbytes with ⟨x, hx, hdecode⟩
  -- The code from the offset on starts with the bytes of the item.
  have hsplit : (own.flatten ++ rest).drop offset
      = bytes ++ ((own.flatten ++ rest).drop offset).drop i.size := by
    rw [← hslice, List.take_append_drop]
  have hlength := (Item.bytes_eq_ok hbytes).1
  have hpos := i.size_pos
  refine ⟨x, hx, ?_⟩
  rw [Bytecode.fetch, hsplit]
  -- An item has at least one byte, so something is decoded.
  rcases bytes with _ | ⟨b, bytes⟩
  · rw [List.length_nil] at hlength
    omega
  · have hfirst := hdecode 0 (((own.flatten ++ rest).drop offset).drop i.size)
    rw [List.cons_append, decodeFrom, List.cons.injEq, Prod.mk.injEq] at hfirst
    rw [List.cons_append]
    exact congrArg some hfirst.1.2

/-- The own code of a finished assembly is loaded, whatever follows it. -/
theorem Assembly.Closed.loaded {a : Assembly} (h : a.Closed) {code : List UInt8}
    (hfinish : a.finish = .ok code) :
    ∃ own parts, Attached.finishAll a.attachments = .ok parts ∧ code = own ++ parts.flatten ∧
      own.length = Item.sizeAll a.items.toList ∧ ∀ rest, Loaded a.items.toList (own ++ rest) := by
  rcases Assembly.finish_eq_ok.mp hfinish with ⟨hnodup, parts, hparts, own, hown, rfl⟩
  have hclosed := (Assembly.closed_iff.mp h).2.1
  have hown := mapM_eq_ok.mp hown
  have hlength := length_flatten_bytes hown
  -- Each kind of item is fetched as what it decodes to.
  refine ⟨own.flatten, parts, hparts, rfl, hlength, fun rest => ?_⟩
  have hfetch := fun offset i (hat : Item.StandsAt a.items.toList offset i) =>
    hat.fetch hown (hclosed i hat.mem) rest
  refine ⟨hnodup, ?_, ?_, ?_, ?_⟩
  · intro offset op hat
    rcases hfetch offset _ hat with ⟨x, rfl, hx⟩
    exact ⟨hx, Instruction.pushSize_of_isPush (hclosed _ hat.mem)⟩
  · intro offset w hat
    rcases hfetch offset _ hat with ⟨x, ⟨k, hk, rfl⟩, hx⟩
    exact ⟨k, hk, hx⟩
  -- A label is a jump destination in the whole code, not only at its place.
  · intro offset id hat
    rcases hfetch offset _ hat with ⟨x, rfl, hx⟩
    refine ⟨decide_eq_true ?_, hx⟩
    rcases decodeFrom_items hown hclosed 0 with ⟨entries, hentries, hdecode⟩
    rcases hentries.mem hat with ⟨_, hmem, rfl⟩
    rw [Nat.zero_add] at hmem
    rw [decodeCode, hdecode]
    exact List.mem_append_left _ hmem
  -- A reference to a label points to the place of the label.
  · intro offset r hat
    rcases hfetch offset _ hat with ⟨x, ⟨value, hvalue, hlt, rfl⟩, hx⟩
    refine ⟨value, hlt, hx, ?_⟩
    rintro id rfl
    exact (Layout.resolve_denotes hnodup hlength hvalue).1

namespace Bytecode

section Steps

variable {limits : Limits} {items : List Item} {code : List UInt8} {offset : Nat}
  {stack : List Word} {state : MachineState}

theorem immediateWord_eq {width : Nat} {bytes : List UInt8} (h : bytes.length = width) :
    immediateWord width bytes = Word.ofBytes bytes := by
  rw [immediateWord, h, Nat.sub_self, List.replicate_zero, List.append_nil]

/-- A constant is pushed. -/
theorem Loaded.step_constant (hl : Loaded items code) {w : Word}
    (h : (Item.constant w).StandsAt items offset) :
    step limits code ⟨offset, stack, state⟩
      = .on ⟨offset + (Item.constant w).size, w :: stack, state⟩ := by
  rcases hl.constant offset w h with ⟨k, hk, hfetch⟩
  have hword : immediateWord (k + 1) w.minimalBytes = w := by
    rw [immediateWord_eq (w.length_minimalBytes.trans hk.symm), Word.ofBytes_minimalBytes]
  have hnext : offset + (Item.constant w).size = offset + 1 + (k.val + 1) := by
    rw [hk, Nat.add_assoc]
    rfl
  rw [step_of_fetch hfetch, hnext]
  exact congrArg (fun word => Next.on ⟨offset + 1 + (k.val + 1), word :: stack, state⟩) hword

/-- A label does nothing. -/
theorem Loaded.step_label (hl : Loaded items code) {id : Nat}
    (h : (Item.label id).StandsAt items offset) :
    step limits code ⟨offset, stack, state⟩
      = .on ⟨offset + (Item.label id).size, stack, state⟩ := by
  rw [step_of_fetch (hl.label offset id h).2]
  rfl

/-- A reference pushes some word. -/
theorem Loaded.step_pushes (hl : Loaded items code) {r : Reference}
    (h : (Item.reference r).StandsAt items offset) (limits : Limits) (stack : List Word)
    (state : MachineState) :
    ∃ w, step limits code ⟨offset, stack, state⟩
      = .on ⟨offset + (Item.reference r).size, w :: stack, state⟩ := by
  rcases hl.reference offset r h with ⟨value, -, hfetch, -⟩
  exact ⟨_, (step_of_fetch hfetch).trans rfl⟩

/-- A reference to a label pushes a word that points to the label. -/
theorem Loaded.step_reference (hl : Loaded items code) {id position : Nat}
    (h : (Item.reference (.label id)).StandsAt items offset)
    (hlabel : (Item.label id).StandsAt items position) (limits : Limits) (stack : List Word)
    (state : MachineState) :
    ∃ w, Points code w position ∧ step limits code ⟨offset, stack, state⟩
      = .on ⟨offset + (Item.reference (.label id)).size, w :: stack, state⟩ := by
  rcases hl.reference offset _ h with ⟨value, hlt, hfetch, hstands⟩
  obtain rfl : value = position := hlabel.label_unique hl.unique (hstands id rfl)
  have hword : immediateWord Item.referenceWidth (Word.bytesOfNat Item.referenceWidth value)
      = BitVec.ofNat 256 value := by
    rw [immediateWord_eq (Word.length_bytesOfNat Item.referenceWidth value), Word.ofBytes,
      Word.natOfBytes_bytesOfNat _ _ hlt]
  refine ⟨BitVec.ofNat 256 value, ⟨?_, (hl.label value id hlabel).1⟩, ?_⟩
  · rw [BitVec.toNat_ofNat]
    exact Nat.mod_eq_of_lt (Nat.lt_trans hlt (by decide))
  · rw [step_of_fetch hfetch, ← hword]
    rfl

/-- A jump goes where its word points. -/
theorem Loaded.step_jump (hl : Loaded items code)
    (h : (Item.instruction .jump).StandsAt items offset) {w : Word} {position : Nat}
    (hw : Points code w position) :
    step limits code ⟨offset, w :: stack, state⟩ = .on ⟨position, stack, state⟩ := by
  obtain ⟨rfl, hlabel⟩ := hw
  rw [step_of_fetch (hl.instruction offset _ h).1]
  exact if_pos hlabel

/-- A conditional jump goes on at the place or behind itself. -/
theorem Loaded.step_jumpi (hl : Loaded items code)
    (h : (Item.instruction .jumpi).StandsAt items offset) {w test : Word} {position : Nat}
    (hw : Points code w position) :
    step limits code ⟨offset, w :: test :: stack, state⟩
      = .on ⟨if test = 0 then offset + (Item.instruction .jumpi).size else position,
        stack, state⟩ := by
  obtain ⟨rfl, hlabel⟩ := hw
  have hjump : jump code w stack state = .on ⟨w.toNat, stack, state⟩ := if_pos hlabel
  rw [step_of_fetch (hl.instruction offset _ h).1]
  by_cases htest : test = 0
  · rw [if_pos htest]
    exact if_pos htest
  · rw [if_neg htest]
    exact (if_neg htest).trans hjump

/-- A pop takes away the word on top. -/
theorem Loaded.step_pop (hl : Loaded items code) (h : (Item.instruction .pop).StandsAt items offset)
    {w : Word} : step limits code ⟨offset, w :: stack, state⟩
      = .on ⟨offset + (Item.instruction .pop).size, stack, state⟩ := by
  rw [step_of_fetch (hl.instruction offset _ h).1]
  rfl

/-- A word that is there is copied. -/
theorem perform_dup {k : Fin 16} {immediate : List UInt8} {w : Word}
    (hw : stack[k.val]? = some w) : perform limits code (.dup k) immediate ⟨offset, stack, state⟩
      = .on ⟨offset + 1, w :: stack, state⟩ := by
  unfold perform
  dsimp only
  rw [hw]
  rfl

/-- A word that is there is exchanged with the one on top. -/
theorem perform_swap {k : Fin 16} {immediate : List UInt8} {top w : Word}
    (hw : stack[k.val]? = some w) :
    perform limits code (.swap k) immediate ⟨offset, top :: stack, state⟩
      = .on ⟨offset + 1, w :: stack.set k top, state⟩ := by
  unfold perform
  dsimp only
  rw [hw]
  rfl

/-- A word that is not there cannot be exchanged. -/
theorem perform_swap_none {k : Fin 16} {immediate : List UInt8} {top : Word}
    (hw : stack[k.val]? = none) :
    perform limits code (.swap k) immediate ⟨offset, top :: stack, state⟩ = .stuck := by
  unfold perform
  dsimp only
  rw [hw]

/-- The instruction that copies. -/
theorem Loaded.step_dup (hl : Loaded items code) {k : Fin 16}
    (h : (Item.instruction (.dup k)).StandsAt items offset) {w : Word}
    (hw : stack[k.val]? = some w) : step limits code ⟨offset, stack, state⟩
      = .on ⟨offset + (Item.instruction (.dup k)).size, w :: stack, state⟩ := by
  rw [step_of_fetch (hl.instruction offset _ h).1, perform_dup hw]
  rfl

/-- The instruction that exchanges. -/
theorem Loaded.step_swap (hl : Loaded items code) {k : Fin 16}
    (h : (Item.instruction (.swap k)).StandsAt items offset) {top w : Word}
    (hw : stack[k.val]? = some w) : step limits code ⟨offset, top :: stack, state⟩
      = .on ⟨offset + (Item.instruction (.swap k)).size, w :: stack.set k top, state⟩ := by
  rw [step_of_fetch (hl.instruction offset _ h).1, perform_swap hw]
  rfl

/-- An instruction that addresses neither the stack nor the code takes its arguments off
    the stack and puts back what it returns. -/
theorem Loaded.step_operate (hl : Loaded items code) {op : Instruction}
    (h : (Item.instruction op).StandsAt items offset) (hop : op.isStackManipulation = false)
    (hpc : op ≠ .pc) {args : List Word} (hargs : args.length = op.args) :
    step limits code ⟨offset, args ++ stack, state⟩
      = match op.execute limits args state with
        | .ok value state => .on ⟨offset + (Item.instruction op).size, value.toList ++ stack, state⟩
        | .error why state => .halted why state := by
  have hfetch := (hl.instruction offset _ h).1
  -- Dropping the top is the one instruction of these that the machine does by itself.
  by_cases hpop : op = .pop
  · subst hpop
    obtain ⟨w, rfl⟩ := List.length_eq_one_iff.mp hargs
    exact hl.step_pop h
  have hoperate : perform limits code op [] ⟨offset, args ++ stack, state⟩
      = operate limits op (offset + 1) (args ++ stack) state := by
    cases op with
    | pop => exact absurd rfl hpop
    | pc => exact absurd rfl hpc
    | push k => exact absurd hop Bool.noConfusion
    | dup k => exact absurd hop Bool.noConfusion
    | swap k => exact absurd hop Bool.noConfusion
    | jump => exact absurd hop Bool.noConfusion
    | jumpi => exact absurd hop Bool.noConfusion
    | jumpdest => exact absurd hop Bool.noConfusion
    | _ => rfl
  have hdeep : ¬(args ++ stack).length < op.args := by
    rw [List.length_append]
    omega
  rw [step_of_fetch hfetch, hoperate, operate, if_neg hdeep, ← hargs, List.take_left,
    List.drop_left]
  rfl

end Steps

end Bytecode

end YulToolchain
