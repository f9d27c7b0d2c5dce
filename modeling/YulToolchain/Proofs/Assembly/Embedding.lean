import YulToolchain.Pipeline
import YulToolchain.Proofs.Assembly.Layout
import YulToolchain.Proofs.CodeGen.Growth
import YulToolchain.Proofs.Syntax.Evaluation

/-!
# Embedded Objects

What the bytes of an object consist of, attachment by attachment and item by item.

The attachments of an object are compiled before its own code and get numbers in
order, so the code can refer to them. Their bytes follow those of the own code. Since
a nested object is compiled into an assembly of its own, its bytes are the same as
those it has when it is assembled alone, and since offsets are relative to the start
of the object around it, nothing in them has to be changed.

Code refers to objects by name. `Literal.Names` says which name a literal stands for,
its escapes resolved, and `GenContext.Asks` what is emitted for questions about a name.

## Main definitions

* `Attachment.Assembles`: The bytes of an attachment on its own.
* `Object.NamesDistinct`: An object and its attachments have different names.
* `Object.Embeds`: What the bytes of an object consist of.
* `GenContext.Asks`: What the questions for the offset and the size of a name become.

## Theorems

* `Attachment.compileSeq_attaches`: Attachments are numbered in order.
* `Object.compile_attaches`: The parts that the code of an object is made of.
* `assemble_embeds`: The bytes of an object.
* `exists_of_assembled?`: What a source that can be assembled gives.
-/

namespace YulToolchain

/-- The name of an attachment. -/
def Attachment.name : Attachment → String
  | .object o => o.name
  | .data name _ => name

/-- The bytes of an attachment on its own. -/
def Attachment.Assembles (d : Dialect) : Attachment → List UInt8 → Prop
  | .object o, bytes => assemble d o = .ok bytes
  | .data _ content, bytes => bytes = content

/-- An object and its attachments have different names. -/
def Object.NamesDistinct (o : Object) : Prop :=
  (o.name :: o.attachments.map Attachment.name).Nodup

instance (o : Object) : Decidable o.NamesDistinct := inferInstanceAs (Decidable (List.Nodup _))

/-- A string literal stands for a name, its escapes resolved. -/
def Literal.Names (l : Literal) (name : String) : Prop :=
  l.kind = .string ∧ ∃ bytes, l.stringBytes = .ok bytes ∧ String.ofList (Text.ofBytes bytes) = name

/-- What is emitted where code asks for the offset and for the size of the object with
    a name. -/
structure GenContext.Asks (c : GenContext) (name : String) (offset size : Item) : Prop where
  offset : ∀ (line : Nat) (function : String) (p : Place) (l : Literal) (b : Builtin),
    c.dialect.builtin? function = some b → b.code = .dataOffset → l.Names name →
      (Expr.call line function [.literal l]).generate c p = (Gen.emit offset : Gen Assembly Unit)
  size : ∀ (line : Nat) (function : String) (p : Place) (l : Literal) (b : Builtin),
    c.dialect.builtin? function = some b → b.code = .dataSize → l.Names name →
      (Expr.call line function [.literal l]).generate c p = (Gen.emit size : Gen Assembly Unit)

/-- What an attachment is compiled to. -/
def Attachment.Compiles (d : Dialect) (named : Bool) : Attachment → Attached → Prop
  | .object o, .code a => o.compile d named Target.fresh = .ok a
  | .data _ content, .data bytes => bytes = content
  | _, _ => False

/-- Naming the activity changes failures only. -/
theorem within_eq_ok {α : Type} {activity : String} {r : Except Failure α} {a : α} :
    within activity r = .ok a ↔ r = .ok a := by
  cases r with
  | ok b => exact Iff.rfl
  | error e =>
      constructor
      · intro h
        exact absurd h (by rintro ⟨⟩)
      · intro h
        exact absurd h (by rintro ⟨⟩)

section Compiling

variable {d : Dialect} {named : Bool}

/-- Attachments are compiled one by one, and get their numbers in order. A name stands
    for the last attachment that has it, so it finds its own if no two are the same. -/
theorem Attachment.compileSeq_attaches : ∀ {attachments : List Attachment}
    {attached attached' : List (String × Nat)} {before after : Assembly},
    Attachment.compileSeq d named attached before attachments = .ok (attached', after) →
      ∃ subs, after = { before with attachments := before.attachments ++ subs } ∧
        List.Forall₂ (Attachment.Compiles d named) attachments subs ∧
        (∀ x, x ∉ attachments.map Attachment.name → attached'.lookup x = attached.lookup x) ∧
        ((attachments.map Attachment.name).Nodup → ∀ (id : Nat) (a : Attachment),
          attachments[id]? = some a →
            attached'.lookup a.name = some (before.attachments.length + id))
  -- Nothing is attached.
  | [], attached, attached', before, after, h => by
      rw [Attachment.compileSeq] at h
      cases h
      refine ⟨[], by rw [List.append_nil]; cases before; rfl, .nil, fun _ _ => rfl,
        fun _ id a ha => ?_⟩
      exact absurd ha (by rw [List.getElem?_nil]; rintro ⟨⟩)
  | a :: rest, attached, attached', before, after, h => by
      -- Whatever the first attachment is, it gets the next number.
      have hstep : ∃ sub, Attachment.Compiles d named a sub ∧
          Attachment.compileSeq d named ((a.name, before.attachments.length) :: attached)
            { before with attachments := before.attachments ++ [sub] } rest
              = .ok (attached', after) := by
        cases a with
        | object o =>
            rcases o with ⟨name, code, inner⟩
            rw [Attachment.compileSeq] at h
            rcases bind_eq_ok h with ⟨sub, hsub, h⟩
            exact ⟨.code sub, within_eq_ok.mp hsub, h⟩
        | data name bytes =>
            rw [Attachment.compileSeq] at h
            exact ⟨.data bytes, rfl, h⟩
      rcases hstep with ⟨sub, hsub, hrest⟩
      rcases Attachment.compileSeq_attaches hrest with ⟨subs, rfl, hall, hothers, hown⟩
      refine ⟨sub :: subs, ?_, .cons hsub hall, fun x hx => ?_, fun hnodup id a' ha' => ?_⟩
      -- The sub-assembly of the first one is in front of the others.
      · simp only [List.append_assoc, List.singleton_append]
      -- A name behind the first one is found as before.
      · rw [List.map_cons, List.mem_cons, not_or] at hx
        rw [hothers x hx.2, List.lookup_cons, beq_eq_false_iff_ne.mpr hx.1]
      -- The first one keeps its number, since its name does not come again.
      · rw [List.map_cons, List.nodup_cons] at hnodup
        cases id with
        | zero =>
            obtain rfl := Option.some.inj ha'
            rw [hothers _ hnodup.1, List.lookup_cons, beq_self_eq_true]
            rfl
        | succ id =>
            have hfound := hown hnodup.2 id a' ha'
            rw [List.length_append, List.length_singleton] at hfound
            rw [hfound, Nat.add_assoc, Nat.add_comm 1 id]

/-- Attachments that were compiled are finished to the bytes they have on their own. -/
theorem Attachment.assembles_of_finishAll {attachments : List Attachment}
    {subs : List Attached} {parts : List (List UInt8)}
    (hcompiles : List.Forall₂ (Attachment.Compiles d false) attachments subs)
    (h : Attached.finishAll subs = .ok parts) :
      List.Forall₂ (Attachment.Assembles d) attachments parts := by
  -- The recursion of `finishAll`: code is finished on its own, data is copied.
  induction hcompiles generalizing parts with
  | nil =>
      rw [Attached.finishAll] at h
      cases h
      exact .nil
  | @cons a sub _ _ ha _ ih =>
      cases sub with
      | code sub =>
          rw [Attached.finishAll] at h
          rcases bind_eq_ok h with ⟨bytes, hbytes, h⟩
          rcases bind_eq_ok h with ⟨rest, hrest, h⟩
          cases h
          cases a with
          | object o =>
              refine .cons ?_ (ih hrest)
              have hcompile : within "Failed to compile" (o.compile d false Target.fresh)
                  = .ok sub := within_eq_ok.mpr ha
              show (within _ _ >>= fun assembly : Assembly =>
                within "Failed to assemble" assembly.finish) = _
              rw [hcompile]
              exact within_eq_ok.mpr hbytes
          -- Data is never compiled from an object, nor an object to data.
          | data name content => exact False.elim ha
      | data bytes =>
          rw [Attached.finishAll] at h
          rcases bind_eq_ok h with ⟨rest, hrest, h⟩
          cases h
          cases a with
          | object o => exact False.elim ha
          | data name content => exact .cons ha (ih hrest)

/-- The code of an object is generated into an assembly that holds nothing but its
    attachments, and nothing is too deep. -/
theorem Object.compile_attaches {o : Object} {after : Assembly}
    (h : o.compile d named Target.fresh = .ok after) :
    ∃ attached before scopes, Attachment.compileSeq d named [] Target.fresh o.attachments
        = .ok (attached, before) ∧
      analyze d o.code = .ok scopes ∧
      generate ⟨d, scopes, ⟨some o.name, attached⟩, named⟩ o.code before = .ok ([], after) := by
  rcases o with ⟨name, code, attachments⟩
  rw [Object.compile] at h
  rcases bind_eq_ok h with ⟨⟨attached, before⟩, hattached, h⟩
  rcases bind_eq_ok h with ⟨scopes, hscopes, h⟩
  rcases bind_eq_ok h with ⟨⟨tooDeep, target⟩, hcode, h⟩
  -- A list of violations is an error, so there are none.
  cases tooDeep with
  | nil =>
      cases h
      refine ⟨attached, before, scopes, hattached, ?_, hcode⟩
      have hscopes := within_eq_ok.mp hscopes
      rcases hok : analyze d code with e | scopes'
      · rw [hok] at hscopes
        exact absurd hscopes (by rintro ⟨⟩)
      · rw [hok] at hscopes
        exact congrArg Except.ok (Except.ok.inj hscopes)
  | cons first rest => exact absurd h (by rintro ⟨⟩)

end Compiling

section Questions

variable {c : GenContext} {name : String}

-- What is asked for is the object itself or an attachment, whichever has the name.
/-- What a query for a given name comes down to. -/
theorem Gen.objectQuery_names {l : Literal} (hl : l.Names name) (line : Nat) (function : String)
    (own : Item) (attachment : Nat → Reference) :
    (Gen.objectQuery c line function [.literal l] own attachment : Gen Assembly Unit)
      = if c.objects.current = some name then Gen.emit own
        else match c.objects.attached.lookup name with
          | some id => Gen.emit (.reference (attachment id))
          | none => Gen.violation line (.unknownObject name) := by
  rcases hl with ⟨hkind, bytes, hbytes, rfl⟩
  rw [Gen.objectQuery, Gen.objectName, if_pos hkind, hbytes]
  rfl

/-- An object asks for itself by its own size. -/
theorem GenContext.asks_current (h : c.objects.current = some name) :
    c.Asks name (.constant 0) (.reference .ownSize) := by
  refine ⟨fun line function p l b hb hcode hl => ?_, fun line function p l b hb hcode hl => ?_⟩
  · rw [Expr.generate]
    simp only [hb, hcode]
    rw [Gen.objectQuery_names hl, if_pos h]
  · rw [Expr.generate]
    simp only [hb, hcode]
    rw [Gen.objectQuery_names hl, if_pos h]

/-- An object asks for what is attached by its number. -/
theorem GenContext.asks_attached {id : Nat} (hother : c.objects.current ≠ some name)
    (h : c.objects.attached.lookup name = some id) :
    c.Asks name (.reference (.offsetOf id)) (.reference (.sizeOf id)) := by
  refine ⟨fun line function p l b hb hcode hl => ?_, fun line function p l b hb hcode hl => ?_⟩
  · rw [Expr.generate]
    simp only [hb, hcode]
    rw [Gen.objectQuery_names hl, if_neg hother, h]
  · rw [Expr.generate]
    simp only [hb, hcode]
    rw [Gen.objectQuery_names hl, if_neg hother, h]

end Questions

/-- What the bytes of an object consist of: its own code and behind it the bytes of its
    attachments in order, each the same as on its own. Questions about names become
    references to what has the name, every reference holds what it stands for, and all
    other bytes are as they were written. -/
def Object.Embeds (d : Dialect) (o : Object) (code : List UInt8) : Prop :=
  ∃ (c : GenContext) (before after : Assembly) (own : List UInt8) (parts : List (List UInt8)),
    (c.dialect = d ∧ analyze d o.code = .ok c.scopes ∧ before.items = #[] ∧
      generate c o.code before = .ok ([], after)) ∧
    (code = own ++ parts.flatten ∧ own.length = Item.sizeAll after.items.toList ∧
      List.Forall₂ (Attachment.Assembles d) o.attachments parts) ∧
    (c.Asks o.name (.constant 0) (.reference .ownSize) ∧
      ∀ (id : Nat) (a : Attachment), o.attachments[id]? = some a →
        c.Asks a.name (.reference (.offsetOf id)) (.reference (.sizeOf id))) ∧
    ∀ offset i, Item.StandsAt after.items.toList offset i →
      i.Written after.items.toList parts code offset

/-- The bytes of an object embed those of its attachments exactly. -/
theorem assemble_embeds {d : Dialect} {o : Object} (hnames : o.NamesDistinct)
    {code : List UInt8} (h : assemble d o = .ok code) : o.Embeds d code := by
  rcases bind_eq_ok h with ⟨after, hcompile, hfinish⟩
  rcases Object.compile_attaches (within_eq_ok.mp hcompile) with
    ⟨attached, before, scopes, hattached, hscopes, hcode⟩
  rcases Attachment.compileSeq_attaches hattached with ⟨subs, hbefore, hsubs, -, hnumbers⟩
  -- The own code adds items, and leaves the attachments as they were compiled.
  rcases generate_grows hcode with ⟨t, -, rfl, -, hgrows⟩
  rcases Assembly.finish_written (within_eq_ok.mp hfinish) with
    ⟨own, parts, hparts, hsplit, hsize, hitems⟩
  have hattachments : t.target.attachments = subs := by
    rw [hgrows.attachments]
    show before.attachments = subs
    rw [hbefore]
    exact List.nil_append subs
  rw [hattachments] at hparts
  rw [Object.NamesDistinct, List.nodup_cons] at hnames
  refine ⟨⟨d, scopes, ⟨some o.name, attached⟩, false⟩, before, t.target, own, parts,
    ⟨rfl, hscopes, by rw [hbefore]; rfl, hcode⟩,
    ⟨hsplit, hsize, Attachment.assembles_of_finishAll hsubs hparts⟩,
    -- What is left is that the queries find the numbers of the attachments.
    ⟨GenContext.asks_current rfl, fun id a ha => ?_⟩, hitems⟩
  refine GenContext.asks_attached (fun hc => hnames.1 ?_) ?_
  -- No attachment has the name of the object itself.
  · rw [Option.some.inj hc]
    exact List.mem_map_of_mem (List.mem_of_getElem? ha)
  -- The first number is zero.
  · have hfound := hnumbers hnames.2 id a ha
    rwa [show (Target.fresh : Assembly).attachments.length = 0 from rfl, Nat.zero_add] at hfound

/-- A source whose object can be assembled and passes a test, from which something
    follows. -/
theorem exists_of_assembled? {d : Dialect} {source : String} {P : Object → List UInt8 → Prop}
    (test : Object → Bool)
    (h : ((Object.ofTokens d (tokensOfBytes source)).toOption.any fun o =>
      (assemble d o).isOk && test o) = true)
    (hP : ∀ o code, parseObject d source = .ok o → assemble d o = .ok code →
      test o = true → P o code) :
    ∃ o code, parseObject d source = .ok o ∧ assemble d o = .ok code ∧ P o code := by
  have hcode : ∀ o, parseObject d source = .ok o → ((assemble d o).isOk && test o) = true →
      ∃ code, assemble d o = .ok code ∧ P o code := by
    intro o hread htest
    rw [Bool.and_eq_true] at htest
    rcases hassemble : assemble d o with e | code
    · rw [hassemble] at htest
      exact absurd htest.1 Bool.noConfusion
    · exact ⟨code, rfl, hP o code hread hassemble htest.2⟩
  rcases exists_of_object? _ h hcode with ⟨o, hread, code, hassemble, hcode⟩
  exact ⟨o, code, hread, hassemble, hcode⟩

/-- An object with data, a nested object that has data itself, and questions about all
    of them. -/
theorem assemble_embeds_nested :
    ∃ o code, parseObject .strictAssemblyForObjects
        ("object \"a\" \x7b code \x7b datacopy(0, dataoffset(\"b\"), datasize(\"b\")) " ++
          "sstore(datasize(\"a\"), dataoffset(\"e\")) \x7d data \"c\" hex\"5b00\" " ++
          "object \"b\" \x7b code \x7b return(0, datasize(\"e\")) \x7d data \"e\" \"xyz\" \x7d " ++
          "data \"e\" hex\"fe\" \x7d") = .ok o ∧
      assemble .strictAssemblyForObjects o = .ok code ∧ o.NamesDistinct ∧
      o.Embeds .strictAssemblyForObjects code := by
  refine exists_of_assembled? (fun o => o.NamesDistinct) (by decide +kernel)
    fun o code _ hcode hnames => ?_
  have hnames := of_decide_eq_true hnames
  exact ⟨hnames, assemble_embeds hnames hcode⟩

end YulToolchain
