import YulToolchain.Proofs.Assembly.Embedding
import YulToolchain.Proofs.CodeGen.Relabelled

/-!
# Named Labels Never Merge Functions

Objects can be compiled so that the entry of a function has the label of its name. Functions
that share a name then share a label, in whatever blocks they stand.

Without names every label is marked once. With names the same text is written under other
labels, and no label is marked twice exactly if all functions of the code have different
names. Then each label stands where the label that it replaces stood, references resolve
to the same positions, and the bytes are the same. If two functions share a name then their
label is marked twice and the assembly cannot be finished, so one is never called in place
of the other.

Each object has labels of its own. What holds for the code of one object goes through for
everything attached to it.

## Main definitions

* `Object.FunctionsDistinct`: In each code of an object all functions have different names.
* `SameOnlyIf`: A result is the same as another one under a condition, and an error
  without it.

## Theorems

* `Ledger.Covers.bytes`: Text that differs in labels only has the same bytes.
* `Assembly.finish_relabelled`: An assembly with named labels is finished to the same bytes,
  or not at all.
* `named_labels_never_merge`: So is an object.
-/

namespace YulToolchain

/-- All functions of a block have different names. -/
def Block.FunctionsDistinct (b : Block) : Prop := (b.allFunctions.map (·.name)).Nodup

instance (b : Block) : Decidable b.FunctionsDistinct := inferInstanceAs (Decidable (List.Nodup _))

/-- In the code of an object, and in that of each object in it, all functions have different
    names. -/
def Object.FunctionsDistinct (o : Object) : Prop := ∀ code ∈ o.codes, code.FunctionsDistinct

instance (o : Object) : Decidable o.FunctionsDistinct :=
  inferInstanceAs (Decidable (∀ code ∈ o.codes, code.FunctionsDistinct))

/-- Where a result is there, another one is the same under a condition, and an error without
    it. -/
def SameOnlyIf {α : Type} (condition : Prop) (r r' : Except Failure α) : Prop :=
  ∀ a, r = .ok a → (condition → r' = .ok a) ∧ (¬ condition → ∃ e, r' = .error e)

namespace SameOnlyIf

variable {α β : Type} {p q : Prop} {r r' : Except Failure α} {f f' : α → Except Failure β}

theorem congr (h : SameOnlyIf p r r') (hpq : p ↔ q) : SameOnlyIf q r r' := fun a ha =>
  ⟨fun hq => (h a ha).1 (hpq.mpr hq), fun hq => (h a ha).2 (hq ∘ hpq.mp)⟩

/-- What goes on after a result needs its own condition, too. -/
theorem bind (h : SameOnlyIf p r r') (hf : ∀ a, SameOnlyIf q (f a) (f' a)) :
    SameOnlyIf (p ∧ q) (r >>= f) (r' >>= f') := by
  intro b hb
  rcases bind_eq_ok hb with ⟨a, ha, hb⟩
  constructor
  · rintro ⟨hp, hq⟩
    rw [(h a ha).1 hp]
    exact (hf a b hb).1 hq
  · intro hne
    by_cases hp : p
    · rw [(h a ha).1 hp]
      exact (hf a b hb).2 fun hq => hne ⟨hp, hq⟩
    · rcases (h a ha).2 hp with ⟨e, he⟩
      exact ⟨e, by rw [he]; rfl⟩

/-- What is done with a value alone does not matter. -/
theorem map (h : SameOnlyIf p r r') (g : α → β) :
    SameOnlyIf p (r >>= fun a => .ok (g a)) (r' >>= fun a => .ok (g a)) :=
  (h.bind (q := True) fun _ _ hb => ⟨fun _ => hb, fun hc => absurd trivial hc⟩).congr
    (and_iff_left trivial)

end SameOnlyIf

theorem Item.Relabelled.size {w : Ledger} {i j : Item} (h : i.Relabelled w j) :
    j.size = i.size := by
  cases h <;> rfl

/-- Relabelling keeps the size of all items. -/
theorem Item.Relabelled.sizeAll {w : Ledger} {items items' : List Item}
    (h : List.Forall₂ (Item.Relabelled w) items items') :
    Item.sizeAll items' = Item.sizeAll items := by
  induction h with
  | nil => rfl
  | cons hi _ ih => rw [Item.sizeAll, Item.sizeAll, hi.size, ih]

/-- Where an item stands, the one in its place stands in the other text. -/
theorem Item.Relabelled.standsAt {w : Ledger} {i : Item} : ∀ {items items' : List Item}
    {offset : Nat}, List.Forall₂ (Item.Relabelled w) items items' → i.StandsAt items offset →
      ∃ j, i.Relabelled w j ∧ j.StandsAt items' offset
  | [], _, _, _, ⟨before, after, hitems, _⟩ => by
      exact absurd hitems.symm (List.append_ne_nil_of_right_ne_nil _ (List.cons_ne_nil _ _))
  | first :: _, first' :: _, _, .cons h hrest, ⟨[], after, hitems, hoffset⟩ => by
      obtain ⟨rfl, rfl⟩ := List.cons.inj hitems
      exact ⟨first', h, [], _, rfl, hoffset⟩
  | first :: _, first' :: _, _, .cons h hrest, ⟨k :: before, after, hitems, hoffset⟩ => by
      obtain ⟨rfl, rfl⟩ := List.cons.inj hitems
      rcases Item.Relabelled.standsAt hrest ⟨before, after, rfl, rfl⟩ with ⟨j, hj, hat⟩
      refine ⟨j, hj, ?_⟩
      rw [← hoffset, Item.sizeAll, ← h.size]
      exact hat.cons first'

/-- A label is resolved by its place in the layout. -/
theorem Layout.resolve_label {l : Layout} {id position : Nat} :
    l.resolve (.label id) = .ok position ↔ l.labels.lookup id = some position := by
  rw [Layout.resolve]
  cases l.labels.lookup id with
  | none => exact iff_of_false (by rintro ⟨⟩) (by rintro ⟨⟩)
  | some found =>
      exact ⟨fun h => congrArg some (Except.ok.inj h),
        fun h => congrArg Except.ok (Option.some.inj h)⟩

/-- Two layouts place everything alike, labels that are sent to each other among it. -/
structure Layout.Alike (w : Ledger) (l l' : Layout) : Prop where
  attachments : l'.attachments = l.attachments
  total : l'.total = l.total
  labels : ∀ i j name position, w.Sends i j name → l.labels.lookup i = some position →
    l'.labels.lookup j = some position

/-- Items in the place of each other have the same bytes. -/
theorem Item.Relabelled.bytes {w : Ledger} {l l' : Layout} (hl : l.Alike w l') {i j : Item}
    (h : i.Relabelled w j) {line : Nat} {bytes : List UInt8} (hi : i.bytes l line = .ok bytes) :
    j.bytes l' line = .ok bytes := by
  -- Only references to labels change, and they lead to the same places.
  cases h with
  | label _ => exact hi
  | reference hsends =>
      rcases (Item.bytes_eq_ok hi).2 with ⟨value, hvalue, hlt, rfl⟩
      have hlookup := hl.labels _ _ _ value hsends (Layout.resolve_label.mp hvalue)
      rw [Item.bytes, Layout.resolve_label.mpr hlookup]
      show (if value < referenceLimit then _ else _) = _
      rw [if_pos hlt]
      rfl
  | plain hplain =>
      cases i with
      | label _ => exact absurd hplain id
      | instruction _ => exact hi
      | constant _ => exact hi
      | reference r =>
          cases r with
          | label _ => exact absurd hplain id
          | ownSize => rwa [Item.bytes, Layout.resolve, hl.total]
          | offsetOf id => rwa [Item.bytes, Layout.resolve, hl.attachments]
          | sizeOf id => rwa [Item.bytes, Layout.resolve, hl.attachments]

/-- Relabelled items have the same bytes. -/
theorem Item.Relabelled.bytesAll {w : Ledger} {l l' : Layout} (hl : l.Alike w l') {line : Nat} :
    ∀ {items items' : List Item} {own : List (List UInt8)},
      List.Forall₂ (Item.Relabelled w) items items' →
      List.Forall₂ (fun i bytes => Item.bytes l line i = .ok bytes) items own →
        List.Forall₂ (fun j bytes => Item.bytes l' line j = .ok bytes) items' own
  | [], _, _, .nil, .nil => .nil
  | _ :: _, _ :: _, _ :: _, .cons h hrest, .cons hi hown =>
      .cons (h.bytes hl hi) (Item.Relabelled.bytesAll hl hrest hown)

namespace Ledger

section Bytes

variable {w : Ledger} {names : List String} {items items' : List Item}

/-- The labels that are marked are sent to each other. -/
theorem Covers.labels (h : w.Covers names items items') :
    List.Forall₂ (fun i j => ∃ name, w.Sends i j name) (definedLabels items)
      (definedLabels items') := by
  refine List.rel_filterMap (R := Item.Relabelled w) (fun i j hij => ?_) h.texts
  cases hij with
  | label h => exact .some ⟨_, h⟩
  | reference h => exact .none
  | plain h =>
      rw [h.label?]
      exact .none

/-- If no label is marked twice then labels are where the labels were that they replace. -/
theorem Covers.lookup (h : w.Covers names items items')
    (hnodup : (definedLabels items').Nodup) {i j : Nat} {name : Option String}
    (hij : w.Sends i j name) {position : Nat}
    (hi : (labelPositions 0 items).lookup i = some position) :
    (labelPositions 0 items').lookup j = some position := by
  rcases labelPositions_standsAt hi with ⟨offset, rfl, hat⟩
  rcases Item.Relabelled.standsAt h.texts hat with ⟨k, hk, hat'⟩
  have hk : k = .label j := by
    cases hk with
    | label h => rw [(Prod.mk.inj (Option.some.inj (h.symm.trans hij))).1]
    | plain h => exact absurd h id
  subst hk
  rcases exists_labelPositions 0 (mem_definedLabels.mpr hat'.mem) with ⟨position', hj⟩
  rcases labelPositions_standsAt hj with ⟨offset', rfl, hat''⟩
  rw [hj, Item.StandsAt.label_unique hnodup hat' hat'']

end Bytes

end Ledger

section Finishing

variable {w : Ledger} {names : List String} {a b : Assembly} {condition : Prop}

/-- An assembly with named labels is finished to the same bytes if all functions have
    different names and so much can be said of the attachments, and not at all otherwise. -/
theorem Assembly.finish_relabelled (hw : w.Faithful)
    (hwritten : w.Covers names a.items.toList b.items.toList) (hline : b.line = a.line)
    (hattached : SameOnlyIf condition (Attached.finishAll a.attachments)
      (Attached.finishAll b.attachments)) :
    SameOnlyIf (names.Nodup ∧ condition) a.finish b.finish := by
  intro code hcode
  rcases Assembly.finish_eq_ok.mp hcode with ⟨hnodup, parts, hparts, own, hown, rfl⟩
  have hnodup' : (definedLabels b.items.toList).Nodup ↔ names.Nodup :=
    (hw.nodup_iff hwritten.labels hnodup).trans hwritten.names.nodup_iff
  rcases hattached parts hparts with ⟨hsame, herror⟩
  -- If the names are different, labels correspond one to one, and all places are the same.
  constructor
  · rintro ⟨hnames, hcondition⟩
    have hsize := Item.Relabelled.sizeAll hwritten.texts
    have hlayout : (a.layout parts).Alike w (b.layout parts) := by
      refine ⟨?_, ?_, fun i j name position hij hi => ?_⟩
      · rw [Assembly.layout, Assembly.layout, hsize]
      · rw [Assembly.layout, Assembly.layout, hsize]
      · exact hwritten.lookup (hnodup'.mpr hnames) hij hi
    refine Assembly.finish_eq_ok.mpr ⟨hnodup'.mpr hnames, parts, hsame hcondition, own, ?_, rfl⟩
    rw [mapM_eq_ok] at hown ⊢
    rw [hline]
    exact Item.Relabelled.bytesAll hlayout hwritten.texts hown
  · intro hne
    rcases hfinish : b.finish with e | code'
    · exact ⟨e, rfl⟩
    · -- A result would need different names and the bytes of all attachments.
      exfalso
      rcases Assembly.finish_eq_ok.mp hfinish with ⟨hnodup'', parts', hparts', -⟩
      refine hne ⟨hnodup'.mp hnodup'', ?_⟩
      by_contra hcondition
      rcases herror hcondition with ⟨e, he⟩
      rw [he] at hparts'
      exact absurd hparts' (by rintro ⟨⟩)

end Finishing

section Compiling

variable {d : Dialect}

mutual

/-- An object that can be compiled without names can be compiled with names. It is finished
    to the same bytes if all functions of each code have different names, and not at all
    otherwise. -/
theorem Object.compile_named : ∀ (o : Object) {a : Assembly},
    o.compile d false Target.fresh = .ok a →
      ∃ b : Assembly, o.compile d true Target.fresh = .ok b ∧
        SameOnlyIf o.FunctionsDistinct a.finish b.finish
  | ⟨name, code, attachments⟩, a, h => by
      rcases Object.compile_attaches h with ⟨attached, before, scopes, hattached, hscopes, hcode⟩
      rcases Attachment.compileSeq_named attachments (b := Target.fresh) rfl hattached with
        ⟨subs, subs', rfl, hcompile, hsubs⟩
      rcases generate_relabels rfl hcode ([] ++ subs') with
        ⟨b, w, hcode', hline, hfaithful, hwritten⟩
      have hparts : SameOnlyIf (∀ code ∈ Attachment.codesSeq attachments, code.FunctionsDistinct)
          (Attached.finishAll a.attachments) (Attached.finishAll b.attachments) := by
        rw [generate_attachments hcode, generate_attachments hcode']
        exact hsubs
      -- The code and its attachments are compiled apart, and put together in the end.
      refine ⟨b, ?_, (Assembly.finish_relabelled hfaithful hwritten hline hparts).congr ?_⟩
      · rw [Object.compile, hcompile]
        show (within _ (orFail _ (analyze d code)) >>= _) = _
        rw [hscopes]
        exact congrArg (· >>= fun r : List StackTooDeep × Assembly => match r.1 with
          | [] => .ok r.2
          | first :: _ => throw (.of (.stackTooDeep first))) hcode'
      · rw [Object.FunctionsDistinct, Object.codes, List.forall_mem_cons]
        exact Iff.rfl

/-- Attachments get the same numbers with names, and what holds for them goes through. -/
theorem Attachment.compileSeq_named : ∀ (attachments : List Attachment)
    {attached attached' : List (String × Nat)} {a a' b : Assembly},
    b.attachments.length = a.attachments.length →
    Attachment.compileSeq d false attached a attachments = .ok (attached', a') →
      ∃ subs subs', a' = { a with attachments := a.attachments ++ subs } ∧
        Attachment.compileSeq d true attached b attachments
          = .ok (attached', { b with attachments := b.attachments ++ subs' }) ∧
        SameOnlyIf (∀ code ∈ Attachment.codesSeq attachments, code.FunctionsDistinct)
          (Attached.finishAll subs) (Attached.finishAll subs')
  | [], attached, attached', a, a', b, hlength, h => by
      rw [Attachment.compileSeq] at h
      cases h
      refine ⟨[], [], ?_, ?_, fun parts hparts => ⟨fun _ => hparts, fun hne => ?_⟩⟩
      · cases a
        rw [List.append_nil]
      · cases b
        rw [Attachment.compileSeq, List.append_nil]
      · rw [Attachment.codesSeq] at hne
        exact absurd (fun _ hcode => absurd hcode List.not_mem_nil) hne
  -- The object comes first, and then the rest behind it.
  | .object ⟨name, code, inner⟩ :: rest, attached, attached', a, a', b, hlength, h => by
      rw [Attachment.compileSeq] at h
      rcases bind_eq_ok h with ⟨sub, hsub, h⟩
      rcases Object.compile_named ⟨name, code, inner⟩ (within_eq_ok.mp hsub) with
        ⟨sub', hsub', hsame⟩
      rcases Attachment.compileSeq_named rest (b := { b with
        attachments := b.attachments ++ [.code sub'] }) (by simp [hlength]) h with
        ⟨subs, subs', rfl, hcompile, hsames⟩
      refine ⟨.code sub :: subs, .code sub' :: subs', ?_, ?_, ?_⟩
      · simp only [List.append_assoc, List.singleton_append]
      · rw [Attachment.compileSeq, within_eq_ok.mpr hsub']
        show Attachment.compileSeq d true ((name, b.attachments.length) :: attached)
          { b with attachments := b.attachments ++ [Attached.code sub'] } rest = _
        rw [hlength]
        simpa only [List.append_assoc, List.singleton_append] using hcompile
      · rw [Attached.finishAll, Attached.finishAll, Attachment.codesSeq]
        refine (hsame.bind fun bytes => hsames.map (List.cons bytes)).congr ?_
        rw [List.forall_mem_append]
        exact Iff.rfl
  -- Data are the same bytes with names and without.
  | .data name bytes :: rest, attached, attached', a, a', b, hlength, h => by
      rw [Attachment.compileSeq] at h
      rcases Attachment.compileSeq_named rest (b := { b with
        attachments := b.attachments ++ [.data bytes] }) (by simp [hlength]) h with
        ⟨subs, subs', rfl, hcompile, hsames⟩
      refine ⟨.data bytes :: subs, .data bytes :: subs', ?_, ?_, ?_⟩
      · simp only [List.append_assoc, List.singleton_append]
      · rw [Attachment.compileSeq]
        show Attachment.compileSeq d true ((name, b.attachments.length) :: attached)
          { b with attachments := b.attachments ++ [Attached.data bytes] } rest = _
        rw [hlength]
        simpa only [List.append_assoc, List.singleton_append] using hcompile
      · rw [Attached.finishAll, Attached.finishAll, Attachment.codesSeq]
        exact hsames.map (List.cons bytes)

end

end Compiling

/-- Whatever can be assembled can be compiled with named labels. If in the code of each object
    all functions have different names then it is finished to the same bytes, and otherwise it
    is not finished. -/
theorem named_labels_never_merge {d : Dialect} {o : Object} {code : List UInt8}
    (h : assemble d o = .ok code) :
    ∃ a : Assembly, o.compile d true Target.fresh = .ok a ∧
      (o.FunctionsDistinct → a.finish = .ok code) ∧
      (¬ o.FunctionsDistinct → ∃ e, a.finish = .error e) := by
  rcases bind_eq_ok h with ⟨b, hb, hfinish⟩
  rcases Object.compile_named o (within_eq_ok.mp hb) with ⟨a, ha, hsame⟩
  exact ⟨a, ha, hsame code (within_eq_ok.mp hfinish)⟩

/-- An object and the object in it may use one name, but blocks of one code may not. -/
theorem named_labels_never_merge_siblings :
    (∃ o code, parseObject .strictAssemblyForObjects
        ("object \"a\" \x7b code \x7b function f(x) -> y \x7b y := g(x) \x7d " ++
          "function g(x) -> y \x7b y := add(x, datasize(\"b\")) \x7d sstore(0, f(1)) \x7d " ++
          "object \"b\" \x7b code \x7b function f() \x7b stop() \x7d f() \x7d \x7d \x7d")
        = .ok o ∧
      assemble .strictAssemblyForObjects o = .ok code ∧ o.FunctionsDistinct ∧
      ∃ a : Assembly, o.compile .strictAssemblyForObjects true Target.fresh = .ok a ∧
        a.finish = .ok code) ∧
    ∃ o code, parseObject .strictAssemblyForObjects
        ("\x7b \x7b function f() -> y \x7b y := 1 \x7d sstore(0, f()) \x7d " ++
          "\x7b function f() -> y \x7b y := 2 \x7d sstore(1, f()) \x7d \x7d") = .ok o ∧
      assemble .strictAssemblyForObjects o = .ok code ∧ ¬ o.FunctionsDistinct ∧
      ∃ a : Assembly, o.compile .strictAssemblyForObjects true Target.fresh = .ok a ∧
        ∃ e, a.finish = .error e := by
  constructor
  · refine exists_of_assembled? (fun o => o.FunctionsDistinct) (by decide +kernel)
      fun o code _ hcode hdistinct => ?_
    have hdistinct := of_decide_eq_true hdistinct
    rcases named_labels_never_merge hcode with ⟨a, ha, hsame, -⟩
    exact ⟨hdistinct, a, ha, hsame hdistinct⟩
  · refine exists_of_assembled? (fun o => ¬ o.FunctionsDistinct) (by decide +kernel)
      fun o code _ hcode hdistinct => ?_
    have hdistinct := of_decide_eq_true hdistinct
    rcases named_labels_never_merge hcode with ⟨a, ha, -, herror⟩
    exact ⟨hdistinct, a, ha, herror hdistinct⟩

end YulToolchain
