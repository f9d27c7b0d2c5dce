import YulToolchain.Proofs.Assembly.Embedding
import YulToolchain.Proofs.Syntax.Written
import YulToolchain.Proofs.Text.Escapes

/-!
# Attachments Under Their Names

Whether code finds an attachment under the name that the attachment is written
with.

The name takes two ways from one and the same token. An attachment gets what stands
between the quotes, as it is. Code asks for the characters that the bytes of the
string make up, its escapes resolved. Both are the same just if there is no
backslash between the quotes, since text with an escape gets shorter when it is
resolved. Then the question is answered with the number of the attachment. If there
is a backslash, the question goes to whatever has the shorter name, which is never
the attachment.

## Main definitions

* `Token.ReadsAs`: The literal that a string token is read as.
* `GenContext.Finds`: Questions about a literal are answered with a number.

## Theorems

* `Attachment.exists_of_lookup`: What is found under a name has that name.
* `attachment_is_found_iff`: An attachment is found under the token that names it just
  if the token has no backslash.
-/

namespace YulToolchain

/-- A string token can be read as a literal. -/
def Token.ReadsAs (t : Token) (l : Literal) : Prop :=
  t.kind = .string ∧
    ∃ before after : Cursor, before.Genuine ∧ before.current = t ∧
      Parse.stringLiteral.run before = .ok (.literal l, after)

/-- Questions for the offset and the size of what a literal stands for are answered
    with the number of an attachment. -/
structure GenContext.Finds (c : GenContext) (l : Literal) (id : Nat) : Prop where
  offset : ∀ line p, (Expr.call line "dataoffset" [.literal l]).generate c p
    = (Gen.emit (.reference (.offsetOf id)) : Gen Assembly Unit)
  size : ∀ line p, (Expr.call line "datasize" [.literal l]).generate c p
    = (Gen.emit (.reference (.sizeOf id)) : Gen Assembly Unit)

section Tokens

/-- A literal that is a string keeps the contents of its token. -/
theorem Parse.stringLiteral_keeps {c : Cursor} (hc : c.Genuine) :
    GainsAt c stringLiteral fun e => ∃ l bytes, e = .literal l ∧ l.kind = .string ∧
      l.text = c.current.contents ∧ l.stringBytes = .ok bytes := by
  refine (advance_gainsAt hc).bind ?_
  rintro _ rfl
  dsimp only
  split
  · rename_i bytes hbytes
    split
    · exact .complain
    · exact optionalType_gains.bind fun type _ => .pure ⟨_, bytes, rfl, rfl, rfl, hbytes⟩
  · exact .complain

/-- A literal stands for its token, its escapes resolved. That is what the token has
    between its quotes just if there is no backslash in it. -/
theorem Token.ReadsAs.names {t : Token} {l : Literal} (h : t.ReadsAs l) :
    ∃ name, l.Names name ∧ (name = t.contents ↔ '\\' ∉ t.contents.toList) := by
  rcases h with ⟨-, before, after, hgenuine, rfl, h⟩
  rcases (Parse.stringLiteral_keeps hgenuine _ _ h).1 with ⟨l, bytes, hl, hkind, htext, hbytes⟩
  cases hl
  refine ⟨String.ofList (Text.ofBytes bytes), ⟨hkind, bytes, hbytes, rfl⟩, ?_⟩
  rw [Literal.stringBytes, htext] at hbytes
  rw [← unescape_reread_iff hbytes, ← String.toList_inj, String.toList_ofList]

theorem exists_token_of_quoted {name : String} (h : IsQuoted name) :
    ∃ t : Token, t.Genuine ∧ t.kind = .string ∧ t.contents = name :=
  ⟨⟨.string, "\"" ++ name ++ "\"", 1⟩, ⟨name, rfl, h⟩, rfl, Parse.contents_quoted rfl⟩

/-- The name of an attachment that was read is what stands between the quotes of a
    string token. -/
theorem Attachment.WrittenSeq.exists_token {d : Dialect} {a : Attachment} :
    ∀ {attachments : List Attachment}, Attachment.WrittenSeq d attachments → a ∈ attachments →
      ∃ t : Token, t.Genuine ∧ t.kind = .string ∧ t.contents = a.name
  | .object o :: rest, h, ha => by
      rcases o with ⟨name, code, inner⟩
      rw [Attachment.WrittenSeq, Object.Written] at h
      rcases List.mem_cons.mp ha with rfl | ha
      · exact exists_token_of_quoted h.1.1
      · exact h.2.exists_token ha
  | .data name _ :: rest, h, ha => by
      rw [Attachment.WrittenSeq] at h
      rcases List.mem_cons.mp ha with rfl | ha
      · exact exists_token_of_quoted h.1
      · exact h.2.exists_token ha

end Tokens

section Lookup

variable {d : Dialect} {named : Bool}

/-- What is found under a name has that name. -/
theorem Attachment.exists_of_lookup {attachments : List Attachment} {attached : List (String × Nat)}
    {target : Assembly}
    (h : Attachment.compileSeq d named [] Target.fresh attachments = .ok (attached, target))
    (hnames : (attachments.map Attachment.name).Nodup) {name : String} {id : Nat}
    (hid : attached.lookup name = some id) :
    ∃ a, attachments[id]? = some a ∧ a.name = name := by
  rcases Attachment.compileSeq_attaches h with ⟨-, -, -, hothers, hnumbers⟩
  by_cases hname : name ∈ attachments.map Attachment.name
  · rcases List.mem_map.mp hname with ⟨a, ha, rfl⟩
    rcases List.mem_iff_getElem?.mp ha with ⟨j, hj⟩
    have hfound := hnumbers hnames j a hj
    rw [show (Target.fresh : Assembly).attachments.length = 0 from rfl, Nat.zero_add, hid] at hfound
    exact ⟨a, by rw [Option.some.inj hfound, hj], rfl⟩
  · rw [hothers name hname] at hid
    exact absurd hid (by rintro ⟨⟩)

/-- Different items are emitted differently. -/
theorem Gen.emit_injective {i j : Item} (h : (emit i : Gen Assembly Unit) = emit j) : i = j := by
  have hstates := congrArg (fun m : Gen Assembly Unit => m.run (.ofTarget Target.fresh)) h
  have hitems := congrArg (fun s : Unit × GenState Assembly => s.2.target.items.toList)
    (Except.ok.inj hstates)
  exact List.head_eq_of_cons_eq hitems

theorem Gen.violation_ne_emit {line : Nat} {fault : InternalFault} {i : Item} :
    (violation line fault : Gen Assembly Unit) ≠ emit i := fun h => by
  have hstates := congrArg (fun m : Gen Assembly Unit => m.run (.ofTarget Target.fresh)) h
  exact absurd hstates (by rintro ⟨⟩)

/-- Questions about a literal are answered with what was attached under the name it
    stands for, unless that is the name of the object itself. -/
theorem GenContext.finds_iff {c : GenContext} (hd : c.dialect = .strictAssemblyForObjects)
    {l : Literal} {name : String} (hl : l.Names name) {id : Nat} :
    c.Finds l id ↔ c.objects.current ≠ some name ∧ c.objects.attached.lookup name = some id := by
  constructor
  -- What the query for the size emits tells whether the name was found.
  · intro h
    have hsize := h.size 0 ⟨0, none, ""⟩
    rw [Expr.generate, hd] at hsize
    change Gen.objectQuery c 0 "datasize" [.literal l] (.reference .ownSize) .sizeOf = _ at hsize
    rw [Gen.objectQuery_names hl] at hsize
    split at hsize
    -- The own size would be emitted.
    · exact absurd (Gen.emit_injective hsize) (by rintro ⟨⟩)
    · rename_i hother
      refine ⟨hother, ?_⟩
      split at hsize
      · rename_i id' hid
        cases Gen.emit_injective hsize
        exact hid
      -- Nothing is emitted where a violation is reported.
      · exact absurd hsize Gen.violation_ne_emit
  · rintro ⟨hother, hid⟩
    have hasks := GenContext.asks_attached hother hid
    -- Both queries are instructions of the dialect.
    have hoffset : ∃ b, c.dialect.builtin? "dataoffset" = some b ∧ b.code = .dataOffset := by
      rw [hd]
      exact ⟨_, rfl, rfl⟩
    have hsize : ∃ b, c.dialect.builtin? "datasize" = some b ∧ b.code = .dataSize := by
      rw [hd]
      exact ⟨_, rfl, rfl⟩
    rcases hoffset with ⟨b, hb, hcode⟩
    rcases hsize with ⟨b', hb', hcode'⟩
    exact ⟨fun line p => hasks.offset line _ p l b hb hcode hl,
      fun line p => hasks.size line _ p l b' hb' hcode' hl⟩

end Lookup

/-- The name of an attachment of an object that was read stands in a string token.
    Code of the object that uses such a token to ask for an attachment gets the number
    of that attachment, just if there is no backslash between the quotes. -/
theorem attachment_is_found_iff {source : String} {o : Object}
    (hread : parseObject .strictAssemblyForObjects source = .ok o) (hnames : o.NamesDistinct)
    {named : Bool} {attached : List (String × Nat)} {target : Assembly}
    (hattached : Attachment.compileSeq .strictAssemblyForObjects named [] Target.fresh o.attachments
      = .ok (attached, target)) {id : Nat} {a : Attachment} (ha : o.attachments[id]? = some a) :
    (∃ t : Token, t.Genuine ∧ t.kind = .string ∧ t.contents = a.name) ∧
      ∀ (t : Token) (l : Literal), t.contents = a.name → t.ReadsAs l → ∀ scopes : Scopes,
        (GenContext.Finds
            ⟨.strictAssemblyForObjects, scopes, ⟨some o.name, attached⟩, named⟩ l id ↔
          '\\' ∉ t.contents.toList) := by
  have hmem : a ∈ o.attachments := List.mem_of_getElem? ha
  rw [Object.NamesDistinct, List.nodup_cons] at hnames
  -- The name comes from a token, since the object was read.
  refine ⟨?_, fun t l ht hl scopes => ?_⟩
  · rcases o with ⟨name, code, attachments⟩
    have hwritten := parseObject_written hread
    rw [Object.Written] at hwritten
    exact hwritten.2.2.exists_token hmem
  -- The literal names the contents of the token exactly if there is no escape.
  rcases hl.names with ⟨name, hname, hback⟩
  rw [GenContext.finds_iff rfl hname, ← hback, ht]
  constructor
  · -- Only the attachment itself has its number, and it goes by one name.
    rintro ⟨-, hid⟩
    rcases Attachment.exists_of_lookup hattached hnames.2 hid with ⟨a', ha', rfl⟩
    rw [ha] at ha'
    rw [Option.some.inj ha']
  · rintro rfl
    refine ⟨fun hown => hnames.1 ?_, ?_⟩
    -- The object itself would have the name of something attached to it.
    · rw [Option.some.inj hown]
      exact List.mem_map_of_mem hmem
    -- The number in the list is the one that was given.
    · rcases Attachment.compileSeq_attaches hattached with ⟨-, -, -, -, hnumbers⟩
      have hfound := hnumbers hnames.2 id a ha
      rwa [show (Target.fresh : Assembly).attachments.length = 0 from rfl, Nat.zero_add] at hfound

/-- A string token that comes before the end of a call. -/
theorem Token.readsAs_quoted {name : String} {l : Literal} (hname : IsQuoted name)
    (h : ∃ after, Parse.stringLiteral.run
      ⟨endToken, [⟨.string, "\"" ++ name ++ "\"", 1⟩, ⟨.rightParen, ")", 1⟩]⟩
        = .ok (.literal l, after)) :
    (⟨.string, "\"" ++ name ++ "\"", 1⟩ : Token).ReadsAs l := by
  rcases h with ⟨after, h⟩
  refine ⟨rfl, _, after, fun t ht => ?_, rfl, h⟩
  rcases List.mem_cons.mp ht with rfl | ht
  · exact ⟨name, rfl, hname⟩
  · obtain rfl := List.mem_singleton.mp ht
    exact trivial

/-- The name of the second attachment is not in ASCII, and code asks for it by the same
    token. -/
theorem attachment_is_found_iff_accented :
    ∃ o code, parseObject .strictAssemblyForObjects
        ("object \"a\" \x7b code \x7b sstore(0, datasize(\"données\")) \x7d " ++
          "data \"d\" hex\"00\" data \"données\" hex\"fe\" \x7d") = .ok o ∧
      assemble .strictAssemblyForObjects o = .ok code ∧
      o.NamesDistinct ∧
      ∃ (attached : List (String × Nat)) (target : Assembly) (t : Token) (l : Literal),
        Attachment.compileSeq .strictAssemblyForObjects false [] Target.fresh o.attachments
          = .ok (attached, target) ∧
        o.attachments.map Attachment.name = ["d", t.contents] ∧ t.ReadsAs l ∧
        ∀ scopes, GenContext.Finds
          ⟨.strictAssemblyForObjects, scopes, ⟨some o.name, attached⟩, false⟩ l 1 := by
  -- The source is read and assembled by evaluation.
  refine exists_of_assembled? (fun o => decide (o.NamesDistinct ∧
      o.attachments.map Attachment.name = ["d", "données"])) (by decide +kernel)
    fun o code hread hcode htest => ?_
  rcases of_decide_eq_true htest with ⟨hnames, htest⟩
  rcases bind_eq_ok hcode with ⟨after, hcompile, -⟩
  rcases Object.compile_attaches (within_eq_ok.mp hcompile) with ⟨attached, target, -, hattached, -⟩
  -- The token and the literal that name the second attachment.
  have hcontents : (⟨.string, "\"" ++ "données" ++ "\"", 1⟩ : Token).contents = "données" :=
    Parse.contents_quoted rfl
  have hreads : (⟨.string, "\"" ++ "données" ++ "\"", 1⟩ : Token).ReadsAs
      ⟨1, .string, "données", ""⟩ :=
    Token.readsAs_quoted (by unfold IsQuoted; decide) ⟨_, rfl⟩
  have hname : (o.attachments.map Attachment.name)[1]? = some "données" := by rw [htest]; rfl
  rcases List.getElem?_map ▸ hname with ha
  rcases Option.map_eq_some_iff.mp ha with ⟨a, ha, hname⟩
  refine ⟨hnames, attached, target, _, _, hattached, by rw [htest, hcontents], hreads,
    fun scopes => ?_⟩
  refine ((attachment_is_found_iff hread hnames hattached ha).2 _ _ (hcontents.trans hname.symm)
    hreads scopes).mpr ?_
  rw [hcontents]
  decide

/-- The key and the literal in code that only stores the size of what a literal stands
    for. -/
def storedSize? : List Stmt → Option (Expr × Literal)
  | [.expr 1 (.instr 1 .sstore [key, .call 1 function [.literal l]])] =>
    if function = "datasize" then some (key, l) else none
  | _ => none

/-- The statement behind a test for its shape. -/
theorem eq_of_storedSize? {stmts : List Stmt} {key : Expr} {l : Literal}
    (h : storedSize? stmts = some (key, l)) :
    stmts = [.expr 1 (.instr 1 .sstore [key, .call 1 "datasize" [.literal l]])] := by
  unfold storedSize? at h
  split at h
  · split at h
    · rename_i hfunction
      cases h
      rw [hfunction]
    · exact absurd h (by rintro ⟨⟩)
  · exact absurd h (by rintro ⟨⟩)

/-- Code that asks for an attachment by a token with an escape finds nothing, though
    the attachment is written with the same token. -/
theorem escaped_attachment_is_not_found :
    ∃ o, parseObject .strictAssemblyForObjects
        ("object \"a\" \x7b code \x7b sstore(0, datasize(\"\\x62\")) \x7d " ++
          "data \"\\x62\" hex\"00\" \x7d") = .ok o ∧
      o.NamesDistinct ∧
      ∃ (t : Token) (l : Literal) (key : Expr),
        o.attachments.map Attachment.name = [t.contents] ∧ t.ReadsAs l ∧
        o.code.stmts = [.expr 1 (.instr 1 .sstore [key, .call 1 "datasize" [.literal l]])] ∧
        assemble .strictAssemblyForObjects o
          = .error ⟨["Failed to compile"], .internal ⟨1, .unknownObject "b"⟩⟩ := by
  refine exists_of_object? (fun o =>
    decide (o.NamesDistinct ∧ o.attachments.map Attachment.name = ["\\x62"] ∧
      (storedSize? o.code.stmts).map (·.2) = some ⟨1, .string, "\\x62", ""⟩) &&
    match assemble .strictAssemblyForObjects o with
    | .error e => decide (e = ⟨["Failed to compile"], .internal ⟨1, .unknownObject "b"⟩⟩)
    | .ok _ => false) (by decide +kernel) fun o _ htest => ?_
  -- The test says everything that was evaluated.
  rw [Bool.and_eq_true, decide_eq_true_eq] at htest
  rcases htest with ⟨⟨hnames, hattachments, hcode⟩, hfails⟩
  rcases Option.map_eq_some_iff.mp hcode with ⟨⟨key, l⟩, hcode, rfl⟩
  -- The token is the name as it stands in the source.
  have hcontents : (⟨.string, "\"" ++ "\\x62" ++ "\"", 1⟩ : Token).contents = "\\x62" :=
    Parse.contents_quoted rfl
  have hreads : (⟨.string, "\"" ++ "\\x62" ++ "\"", 1⟩ : Token).ReadsAs
      ⟨1, .string, "\\x62", ""⟩ :=
    Token.readsAs_quoted (by unfold IsQuoted; decide) ⟨_, rfl⟩
  refine ⟨hnames, _, _, key, by rw [hattachments, hcontents], hreads,
    eq_of_storedSize? hcode, ?_⟩
  -- Assembling fails at the query.
  rcases hassemble : assemble .strictAssemblyForObjects o with e | code
  · rw [hassemble] at hfails
    exact congrArg Except.error (of_decide_eq_true hfails)
  · rw [hassemble] at hfails
    exact absurd hfails Bool.noConfusion

end YulToolchain
