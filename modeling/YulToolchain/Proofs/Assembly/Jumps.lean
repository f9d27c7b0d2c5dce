import YulToolchain.Proofs.Assembly.Decoding
import YulToolchain.Proofs.Assembly.Embedding
import YulToolchain.Proofs.CodeGen.Labels

/-!
# Jumps Land

Every jump in the code of an object that is read and compiled lands on a label.

Code generation defines every label it hands out once, and refers to no others
(`generate_labels`), so the assembly of an object is closed, and so are those attached
to it. A closed assembly can be finished as long as its size fits into a reference.
What is left is to read it: its own code decodes to its items, so the bytes of a
constant or of a reference are never taken for a label, and the position that a label
resolves to is one where a label is read.

## Main definitions

* `Assembly.Lands`: What finished code is read as, and that its jumps land.

## Theorems

* `Object.compile_closed`: Assemblies of objects are closed.
* `Assembly.Closed.lands`: Jumps of a closed assembly land.
* `compile_lands`: Jumps of an object that is read and compiled land.
-/

namespace YulToolchain

/-- How the own code of an assembly is read, with the bytes of its attachments behind
    it: item by item up to the end, and every reference to a label holds the offset of
    the one place where the label is read. -/
structure Assembly.Lands (a : Assembly) (own : List UInt8) (parts : List (List UInt8)) : Prop where
  length : own.length = Item.sizeAll a.items.toList
  decode : Item.DecodeAll (a.layout parts) 0 a.items.toList (decodeCode own)
  within : decodeCode (own ++ parts.flatten)
    = decodeCode own ++ decodeFrom own.length parts.flatten
  defined : ∀ id, Item.reference (.label id) ∈ a.items.toList →
    (definedLabels a.items.toList).count id = 1
  lands : ∀ offset id, (Item.reference (.label id)).StandsAt a.items.toList offset →
    ∃ value, value < Item.referenceLimit ∧
      (offset, .instruction (.push 3) (Word.bytesOfNat Item.referenceWidth value))
        ∈ decodeCode own ∧
      (Item.label id).StandsAt a.items.toList value ∧
      (value, .instruction .jumpdest []) ∈ decodeCode own ∧ own[value]? = some 0x5b

section Closing

variable {d : Dialect} {named : Bool}

/-- The numbers of attachments are numbers of attachments. -/
theorem Attachment.compileSeq_numbers : ∀ {attachments : List Attachment}
    {attached attached' : List (String × Nat)} {before after : Assembly},
    Attachment.compileSeq d named attached before attachments = .ok (attached', after) →
      (∀ e ∈ attached, e.2 < before.attachments.length) →
      ∀ e ∈ attached', e.2 < after.attachments.length
  | [], attached, attached', before, after, h, hattached => by
      rw [Attachment.compileSeq] at h
      cases h
      exact hattached
  | a :: rest, attached, attached', before, after, h, hattached => by
      -- The next number is that of the attachment that is added.
      have hnext : ∀ (sub : Attached) (name : String),
          ∀ e ∈ (name, before.attachments.length) :: attached,
            e.2 < (before.attachments ++ [sub]).length := by
        intro sub name e he
        rw [List.length_append, List.length_singleton]
        rcases List.mem_cons.mp he with rfl | he
        · exact Nat.lt_succ_self _
        · exact Nat.lt_succ_of_lt (hattached e he)
      cases a with
      | object o =>
          rcases o with ⟨name, code, inner⟩
          rw [Attachment.compileSeq] at h
          rcases bind_eq_ok h with ⟨sub, hsub, h⟩
          exact Attachment.compileSeq_numbers h (hnext (.code sub) name)
      | data name bytes =>
          rw [Attachment.compileSeq] at h
          exact Attachment.compileSeq_numbers h (hnext (.data bytes) name)

/-- Items that have a meaning can be finished. -/
theorem Item.Proper.closed {objects : ObjectNames} {lastLabel attachments : Nat}
    {labels : List Nat} {i : Item} (h : i.Proper objects lastLabel)
    (hlabels : ∀ id, 0 < id ∧ id ≤ lastLabel → id ∈ labels)
    (hobjects : ∀ e ∈ objects.attached, e.2 < attachments) : i.Closed labels attachments := by
  have hnumber : ∀ id ∈ objects.attached.map (·.2), id < attachments := by
    intro id hid
    rcases List.mem_map.mp hid with ⟨e, he, rfl⟩
    exact hobjects e he
  cases i with
  | reference r =>
      cases r with
      | label id => exact hlabels id h
      | ownSize => trivial
      | offsetOf id => exact hnumber id h
      | sizeOf id => exact hnumber id h
  | _ => exact h

mutual

/-- The assembly of an object whose code can be read is closed. -/
theorem Object.compile_closed (hd : d.flavour ≠ .loose) : ∀ {o : Object} {a : Assembly},
    (∀ code ∈ o.codes, code.Readable) → o.compile d false Target.fresh = .ok a → a.Closed
  | ⟨name, code, attachments⟩, a, hread, h => by
      rw [Object.codes] at hread
      rcases Object.compile_attaches h with ⟨attached, before, scopes, hattached, hscopes, hcode⟩
      rcases Attachment.compileSeq_attaches hattached with ⟨subs, hbefore, hsubs, -, -⟩
      -- Nothing is attached at first.
      have hnumbers := Attachment.compileSeq_numbers hattached
        fun e he => absurd he List.not_mem_nil
      -- The own code brings labels of its own, and refers to these and to the attachments only.
      rcases generate_grows hcode with ⟨t, -, rfl, -, hgrows⟩
      have hresolved := analyze_resolved hd (hread code List.mem_cons_self) hscopes
      rcases generate_labels rfl hresolved (by rw [hbefore]; rfl) (by rw [hbefore]; rfl) hcode with
        ⟨hnodup, hlabels, hproper⟩
      have hattachments : t.target.attachments = before.attachments := hgrows.attachments
      refine Assembly.closed_iff.mpr ⟨hnodup, fun i hi => ?_, ?_⟩
      · rw [hattachments]
        exact (hproper i hi).closed (fun id hid => (hlabels id).mpr hid) hnumbers
      · rw [hattachments, hbefore]
        -- The attachments are closed by the same theorem, with less code to compile.
        exact Attachment.closedAll_of_compiles hd
          (fun code' hcode' => hread code' (List.mem_cons_of_mem _ hcode')) hsubs

/-- Everything that compiling the attachments makes is closed. -/
theorem Attachment.closedAll_of_compiles (hd : d.flavour ≠ .loose) :
    ∀ {attachments : List Attachment} {subs : List Attached},
      (∀ code ∈ Attachment.codesSeq attachments, code.Readable) →
      List.Forall₂ (Attachment.Compiles d false) attachments subs → Attached.ClosedAll subs
  | [], _, _, .nil => by
      rw [Attached.ClosedAll]
      trivial
  | .object o :: rest, sub :: subs, hread, .cons h hrest => by
      rw [Attachment.codesSeq] at hread
      cases sub with
      | code a =>
          rw [Attached.ClosedAll]
          -- An object is closed on its own.
          exact ⟨Object.compile_closed hd
            (fun code hcode => hread code (List.mem_append_left _ hcode)) h,
            Attachment.closedAll_of_compiles hd
              (fun code hcode => hread code (List.mem_append_right _ hcode)) hrest⟩
      | data bytes => exact False.elim h
  | .data name content :: rest, sub :: subs, hread, .cons h hrest => by
      rw [Attachment.codesSeq] at hread
      cases sub with
      | code a => exact False.elim h
      -- Data refers to nothing.
      | data bytes =>
          rw [Attached.ClosedAll]
          exact Attachment.closedAll_of_compiles hd hread hrest

end

end Closing

/-- The jumps of a closed assembly land. -/
theorem Assembly.Closed.lands {a : Assembly} (h : a.Closed)
    (hsize : a.size < Item.referenceLimit) :
    ∃ own parts, a.finish = .ok (own ++ parts.flatten) ∧
      Attached.finishAll a.attachments = .ok parts ∧ a.Lands own parts := by
  rcases Assembly.finish_of_closed h hsize with ⟨code, hcode, -⟩
  rcases Assembly.finish_eq_ok.mp hcode with ⟨hnodup, parts, hparts, own, hown, rfl⟩
  have hclosed := (Assembly.closed_iff.mp h).2.1
  have hown := mapM_eq_ok.mp hown
  have hlength := length_flatten_bytes hown
  -- Decoding the own code goes item by item, whatever comes behind.
  rcases decodeFrom_items hown hclosed 0 with ⟨entries, hentries, hdecode⟩
  have hall : decodeCode own.flatten = entries := by
    have hnil := hdecode []
    rwa [List.append_nil, decodeFrom, List.append_nil] at hnil
  -- Every label is defined once, since it is defined at all and no label is twice.
  refine ⟨own.flatten, parts, hcode, hparts, hlength, hall ▸ hentries, ?_, ?_, ?_⟩
  · rw [hall, hlength, decodeCode, hdecode, Nat.zero_add]
  · exact fun id hid => List.count_eq_one_of_mem hnodup (hclosed _ hid)
  -- A push of a place: the place is that of the label, where a jump destination is.
  · intro offset id hat
    rcases hentries.mem hat with ⟨x, hx, value, hvalue, hlt, rfl⟩
    rw [Nat.zero_add] at hx
    have hdenotes := Layout.resolve_denotes hnodup hlength hvalue
    have hlabel := hdenotes.1
    rcases hentries.mem hlabel with ⟨_, hjumpdest, rfl⟩
    rw [Nat.zero_add] at hjumpdest
    refine ⟨value, hlt, hall ▸ hx, hlabel, hall ▸ hjumpdest, ?_⟩
    rcases hlabel.bytes hown [] with ⟨bytes, hbytes, hslice⟩
    obtain rfl : [Instruction.jumpdest.opcode] = bytes := Except.ok.inj hbytes
    rw [List.append_nil] at hslice
    -- The first byte of the slice is that of the instruction.
    have hfirst := congrArg (fun l : List UInt8 => l[0]?) hslice
    rw [show (Item.label id).size = 1 from rfl] at hfirst
    have hopcode : Instruction.jumpdest.opcode = 0x5b := rfl
    rw [← hopcode]
    simpa using hfirst

/-- In the code of an object that is read and compiled every jump lands: the assembly can
    be finished if its size fits into a reference, its own code is read item by item, and
    every reference to a label holds the offset of the one place where it is read. -/
theorem compile_lands {d : Dialect} (hd : d.flavour ≠ .loose) {o : Object}
    (hread : ∀ code ∈ o.codes, ∃ source, Reads d source code) {a : Assembly}
    (hcompile : o.compile d false Target.fresh = .ok a) (hsize : a.size < 2 ^ 32) :
    ∃ own parts, a.finish = .ok (own ++ parts.flatten) ∧
      Attached.finishAll a.attachments = .ok parts ∧ a.Lands own parts := by
  refine (Object.compile_closed hd (fun code hcode => ?_) hcompile).lands hsize
  rcases hread code hcode with ⟨source, hsource⟩
  exact hsource.readable hd

/-- A source whose object can be compiled and passes a test with its assembly, from which
    something follows. -/
theorem exists_of_compiled? {d : Dialect} {source : String} {P : Object → Assembly → Prop}
    (test : Object → Assembly → Bool)
    (h : ((Object.ofTokens d (tokensOfBytes source)).toOption.any fun o =>
      (o.compile d false Target.fresh).toOption.any (test o)) = true)
    (hP : ∀ o a, parseObject d source = .ok o → o.compile d false Target.fresh = .ok a →
      test o a = true → P o a) :
    ∃ o a, parseObject d source = .ok o ∧ o.compile d false Target.fresh = .ok a ∧ P o a := by
  have hassembly : ∀ o, parseObject d source = .ok o →
      (o.compile d false Target.fresh).toOption.any (test o) = true →
      ∃ a, o.compile d false Target.fresh = .ok a ∧ P o a := by
    intro o hread htest
    rcases exists_ok_of_any htest with ⟨a, hcompile, htest⟩
    exact ⟨a, hcompile, hP o a hread hcompile htest⟩
  rcases exists_of_object? _ h hassembly with ⟨o, hread, a, hcompile, ha⟩
  exact ⟨o, a, hread, hcompile, ha⟩

/-- A function that is called before it is defined, a loop that is left, a switch, a
    constant that holds the opcode of a label, and data that does. -/
theorem compile_lands_loop :
    ∃ (o : Object) (a : Assembly), parseObject .strictAssemblyForObjects
        ("object \"a\" \x7b code \x7b for \x7b let i \x7d 1 \x7b\x7d " ++
          "\x7b switch f(i, 0x5b5b) case 0 \x7b break \x7d default \x7b i := 91 \x7d \x7d " ++
          "function f(x, y) -> r \x7b if x \x7b r := dataoffset(\"b\") \x7d \x7d \x7d " ++
          "data \"b\" hex\"5b60\" \x7d") = .ok o ∧
      o.compile .strictAssemblyForObjects false Target.fresh = .ok a ∧ a.size < 2 ^ 32 ∧
      ∃ own parts, a.finish = .ok (own ++ parts.flatten) ∧
        Attached.finishAll a.attachments = .ok parts ∧ a.Lands own parts := by
  refine exists_of_compiled? (fun _ a => decide (a.size < 2 ^ 32)) (by decide +kernel)
    fun o a hread hcompile hsize => ?_
  have hsize := of_decide_eq_true hsize
  refine ⟨hsize, compile_lands (by decide) (fun code hcode => ?_) hcompile hsize⟩
  exact ⟨_, .inr ⟨o, hread, hcode⟩⟩

end YulToolchain
