import YulToolchain.Proofs.Rename.Exact
import YulToolchain.Proofs.Static.Standing

/-!
# New Names Can Be Written Down

A program in new names can be written down if the old program could.

A new name is an old one with a number behind it. So it is a name, and the underscore
keeps it apart from the keywords. It is not reserved, so a call of it is read as a call. The
names of builtins stay what they are, and so does how calls of them are read.

## Main definitions

* `Spelling.Sayable`: The spelling of some names can be written down.

## Theorems

* `isName_candidate`: A name with a number behind it is a name.
* `Block.Written.respell`: Code that can be written down can be written down in new names.
* `Block.declared_eq_declarations`: The names that a program declares.
* `makeNamesUnique_written`: The renamed program can be written down, is accepted, and
  declares no name twice.
-/

namespace YulToolchain

section Names

theorem keyword?_underscore {s : String} (h : '_' ∈ s.toList) : keyword? s = none := by
  unfold keyword?
  split
  all_goals first | rfl | exact absurd h (by decide)

/-- A name with a number behind it is a name. -/
theorem isName_candidate {x : String} (h : IsName x) (n : Nat) :
    IsName (NameSupply.candidate x n) := by
  rcases h with ⟨⟨c, rest, hx, hstart, hparts⟩, _⟩
  have hchars : (NameSupply.candidate x n).toList = c :: (rest ++ '_' :: Nat.toDigits 10 n) := by
    simp only [NameSupply.candidate, String.toList_append, hx, Nat.toString_eq_ofList_toDigits,
      String.toList_ofList, List.cons_append, List.append_assoc]
    rfl
  have hdigits : ∀ c ∈ Nat.toDigits 10 n, isIdentifierPart c = true := by
    intro c hc
    rw [isIdentifierPart, Nat.isDigit_of_mem_toDigits (by decide) (Nat.le_refl _) hc, Bool.or_true,
      Bool.true_or]
  refine ⟨⟨c, _, hchars, hstart, List.forall_mem_append.mpr ⟨hparts, ?_⟩⟩, ?_⟩
  · exact List.forall_mem_cons.mpr ⟨by decide, hdigits⟩
  · refine keyword?_underscore ?_
    rw [hchars]
    exact List.mem_cons_of_mem _ (List.mem_append_right _ List.mem_cons_self)

/-- What is not reserved is neither a builtin nor an instruction. -/
theorem Dialect.Admits.calls {d : Dialect} {x : String} (h : d.Admits x) : d.Calls x := by
  refine ⟨h.1, fun line args => ?_⟩
  have hres := h.2
  cases d with
  | typed => rfl
  | machine m =>
      rw [Dialect.reserved, Bool.or_eq_false_iff] at hres
      have hmnemonic : Instruction.ofMnemonic? x = none :=
        Option.not_isSome_iff_eq_none.mp (Bool.eq_false_iff.mp hres.2)
      have hnone : Dialect.functionalInstruction? (.machine m) x = none := by
        rw [Dialect.functionalInstruction?, MachineDialect.functionalInstruction?, hmnemonic]
        split <;> rfl
      simp only [Parse.resolveCall, hnone, hmnemonic, Option.isSome_none, Bool.and_false,
        Bool.false_eq_true, if_false]

end Names

/-- The spelling of some names can be written down: builtins keep their names, and the others
    have names that can be declared. -/
structure Spelling.Sayable (d : Dialect) (f : Spelling) (uses : List (Nat × String))
    (declarations : List Declaration) : Prop where
  used : ∀ u ∈ uses, IsName u.2 →
    (d.builtin? u.2).isSome = true ∧ f u.1 u.2 = u.2 ∨ d.Admits (f u.1 u.2)
  declared : ∀ decl ∈ declarations, IsName decl.name → IsName (f decl.scope decl.name)

section Code

variable {d : Dialect} {f : Spelling}

theorem Spelling.sayable_append {uses uses' : List (Nat × String)}
    {decls decls' : List Declaration} :
    Spelling.Sayable d f (uses ++ uses') (decls ++ decls') ↔
      Spelling.Sayable d f uses decls ∧ Spelling.Sayable d f uses' decls' := by
  refine ⟨fun ⟨hu, hd⟩ => ?_, fun ⟨h, h'⟩ => ⟨?_, ?_⟩⟩
  · rw [List.forall_mem_append] at hu hd
    exact ⟨⟨hu.1, hd.1⟩, ⟨hu.2, hd.2⟩⟩
  · exact List.forall_mem_append.mpr ⟨h.used, h'.used⟩
  · exact List.forall_mem_append.mpr ⟨h.declared, h'.declared⟩

mutual

/-- A renamed expression can be written down, if the new names can. -/
theorem Expr.Written.respell {g : String → String} : ∀ {e : Expr} {depth : Nat},
    e.Written d depth → (∀ x ∈ e.uses, IsName x →
      (d.builtin? x).isSome = true ∧ g x = x ∨ d.Admits (g x)) → (e.respell g).Written d depth
  | .literal l, depth, h, _ => by
      rw [Expr.Written] at h
      rw [Expr.respell, Expr.Written]
      exact h
  | .ident _ x, depth, h, hg => by
      rw [Expr.Written] at h
      rw [Expr.respell, Expr.Written]
      rcases hg x (by rw [Expr.uses]; exact List.mem_cons_self) h with ⟨_, hx⟩ | hx
      · rw [hx]
        exact h
      · exact hx.1
  -- A builtin keeps its name, and any other name has a spelling that may be called.
  | .instr _ op args, depth, h, hg => by
      rw [Expr.uses] at hg
      rw [Expr.Written] at h
      rw [Expr.respell, Expr.Written]
      exact ⟨h.1, h.2.1, h.2.2.1, Expr.WrittenAll.respell h.2.2.2 hg⟩
  | .call _ x args, depth, h, hg => by
      rw [Expr.uses, List.forall_mem_cons] at hg
      rw [Expr.Written] at h
      rw [Expr.respell, Expr.Written]
      rcases hg.1 h.1 with ⟨_, hx⟩ | hx
      · rw [hx]
        exact ⟨h.1, h.2.1, h.2.2.1, Expr.WrittenAll.respell h.2.2.2 hg.2⟩
      · exact ⟨hx.calls.1, hx.calls.2, h.2.2.1, Expr.WrittenAll.respell h.2.2.2 hg.2⟩
termination_by structural e => e

theorem Expr.WrittenAll.respell {g : String → String} : ∀ {es : List Expr} {depth : Nat},
    Expr.WrittenAll d depth es → (∀ x ∈ Expr.usesAll es, IsName x →
      (d.builtin? x).isSome = true ∧ g x = x ∨ d.Admits (g x)) →
        Expr.WrittenAll d depth (Expr.respellAll g es)
  | [], _, _, _ => by
      rw [Expr.respellAll, Expr.WrittenAll]
      trivial
  | e :: rest, depth, h, hg => by
      rw [Expr.usesAll, List.forall_mem_append] at hg
      rw [Expr.WrittenAll] at h
      rw [Expr.respellAll, Expr.WrittenAll]
      exact ⟨Expr.Written.respell h.1 hg.1, Expr.WrittenAll.respell h.2 hg.2⟩
termination_by structural es => es

end

theorem Spelling.Sayable.expr {scope : Nat} {xs : List String} {decls : List Declaration}
    (h : Spelling.Sayable d f (xs.map (scope, ·)) decls) : ∀ x ∈ xs, IsName x →
      (d.builtin? x).isSome = true ∧ f scope x = x ∨ d.Admits (f scope x) :=
  List.forall_mem_map.mp h.used

theorem TypedName.written_respell {vars : List TypedName} {scope : Nat}
    (h : ∀ v ∈ vars, v.Written)
    (hf : ∀ v ∈ vars, IsName v.name → IsName (f scope v.name)) :
    ∀ v ∈ vars.map (·.respell (f scope)), v.Written :=
  List.forall_mem_map.mpr fun v hv => ⟨hf v hv (h v hv).1, (h v hv).2⟩

theorem Identifier.name_respell {t : Identifier} {scope : Nat} (h : IsName t.name)
    (hf : (d.builtin? t.name).isSome = true ∧ f scope t.name = t.name ∨
      d.Admits (f scope t.name)) : IsName (t.respell (f scope)).name := by
  show IsName (f scope t.name)
  rcases hf with ⟨_, hf⟩ | hf
  · rw [hf]
    exact h
  · exact hf.1

mutual

/-- A block that can be written down can be written down in other names. -/
theorem Block.Written.respell : ∀ {b : Block} {depth id : Nat}, b.Written d depth →
    Spelling.Sayable d f (b.uses id) (b.declarations id) → (b.respell f id).Written d depth
  | ⟨_, stmts⟩, depth, id, h, hf => by
      rw [Block.Written] at h
      rw [Block.uses, Block.declarations] at hf
      rw [Block.respell, Block.Written]
      exact ⟨h.1, Stmt.WrittenSeq.respell h.2 hf⟩
termination_by structural b => b

/-- Renamed statements can be written down, if the new names can. -/
theorem Stmt.WrittenSeq.respell : ∀ {stmts : List Stmt} {depth scope next : Nat},
    Stmt.WrittenSeq d depth stmts → Spelling.Sayable d f (Stmt.usesSeq scope next stmts)
      (Stmt.declarationsSeq scope next stmts) →
      Stmt.WrittenSeq d depth (Stmt.respellSeq f scope next stmts)
  | [], _, _, _, _, _ => by
      rw [Stmt.respellSeq, Stmt.WrittenSeq]
      trivial
  | s :: rest, depth, scope, next, h, hf => by
      rw [Stmt.WrittenSeq] at h
      rw [Stmt.usesSeq, Stmt.declarationsSeq, Spelling.sayable_append] at hf
      rw [Stmt.respellSeq, Stmt.WrittenSeq]
      exact ⟨Stmt.Written.respell h.1 hf.1, Stmt.WrittenSeq.respell h.2 hf.2⟩
termination_by structural stmts => stmts

/-- A renamed statement can be written down, if the new names can. -/
theorem Stmt.Written.respell : ∀ {s : Stmt} {depth scope next : Nat}, s.Written d depth →
    Spelling.Sayable d f (s.uses scope next) (s.declarations scope next) →
      (s.respell f scope next).Written d depth
  | .expr _ e, depth, scope, next, h, hf => by
      rw [Stmt.Written] at h
      rw [Stmt.uses] at hf
      rw [Stmt.respell, Stmt.Written]
      exact h.respell hf.expr
  | .assign _ targets value, depth, scope, next, h, hf => by
      rw [Stmt.Written] at h
      rw [Stmt.uses] at hf
      -- The targets are used first, and then the names in the value.
      have huses := List.forall_mem_append.mp hf.expr
      rw [Stmt.respell, Stmt.Written]
      refine ⟨fun hnil => h.1 (List.map_eq_nil_iff.mp hnil), ?_, h.2.2.respell huses.2⟩
      exact List.forall_mem_map.mpr fun t ht => Identifier.name_respell (h.2.1 t ht)
        (huses.1 t.name (List.mem_map_of_mem ht) (h.2.1 t ht))
  | .decl _ vars value, depth, scope, next, h, hf => by
      rw [Stmt.Written] at h
      rw [Stmt.uses, Stmt.declarations] at hf
      rw [Stmt.respell, Stmt.Written]
      refine ⟨fun hnil => h.1 (List.map_eq_nil_iff.mp hnil),
        TypedName.written_respell h.2.1 (List.forall_mem_map.mp hf.declared), ?_⟩
      cases value with
      | none => exact fun e he => absurd he (by rintro ⟨⟩)
      | some value =>
          intro e he
          obtain rfl := Option.some.inj he
          exact (h.2.2 value rfl).respell hf.expr
  | .func _ name params returns body, depth, scope, next, h, hf => by
      rw [Stmt.Written] at h
      rw [Stmt.uses, Stmt.declarations] at hf
      rcases hf with ⟨huses, hdecls⟩
      rw [List.forall_mem_append, List.forall_mem_cons, List.forall_mem_map,
        List.forall_mem_append] at hdecls
      rcases hdecls with ⟨⟨hname, hparams, hreturns⟩, hbody⟩
      rw [Stmt.respell, Stmt.Written]
      exact ⟨hname h.1, TypedName.written_respell h.2.1 hparams,
        TypedName.written_respell h.2.2.1 hreturns,
        Block.Written.respell h.2.2.2 ⟨huses, hbody⟩⟩
  | .cond _ test body, depth, scope, next, h, hf => by
      rw [Stmt.Written] at h
      rw [Stmt.uses, Stmt.declarations, ← List.nil_append (body.declarations next),
        Spelling.sayable_append] at hf
      rw [Stmt.respell, Stmt.Written]
      exact ⟨h.1.respell hf.1.expr, Block.Written.respell h.2 hf.2⟩
  | .switch _ subject cases, depth, scope, next, h, hf => by
      rw [Stmt.Written] at h
      rw [Stmt.uses, Stmt.declarations, ← List.nil_append (Case.declarationsSeq next cases),
        Spelling.sayable_append] at hf
      rw [Stmt.respell, Stmt.Written]
      refine ⟨h.1.respell hf.1.expr, ?_, Case.WrittenSeq.respell h.2.2 hf.2⟩
      -- Renaming leaves no switch without cases.
      rcases cases with _ | ⟨⟨_, _, _⟩, _⟩
      · exact absurd rfl h.2.1
      · rw [Case.respellSeq]
        exact List.cons_ne_nil _ _
  | .loop _ ⟨_, pre⟩ test post body, depth, scope, next, h, hf => by
      rw [Stmt.Written, Block.Written] at h
      rw [Stmt.uses, Stmt.declarations] at hf
      rcases hf with ⟨huses, hdecls⟩
      simp only [List.forall_mem_append] at huses hdecls
      rcases huses with ⟨⟨⟨upre, utest⟩, ubody⟩, upost⟩
      rcases hdecls with ⟨⟨dpre, dbody⟩, dpost⟩
      rw [Stmt.respell, Stmt.Written, Block.Written]
      exact ⟨⟨h.1.1, Stmt.WrittenSeq.respell h.1.2 ⟨upre, dpre⟩⟩,
        h.2.1.respell (List.forall_mem_map.mp utest),
        Block.Written.respell h.2.2.1 ⟨upost, dpost⟩,
        Block.Written.respell h.2.2.2 ⟨ubody, dbody⟩⟩
  | .brk _, _, _, _, _, _ => by
      rw [Stmt.respell, Stmt.Written]
      trivial
  | .cont _, _, _, _, _, _ => by
      rw [Stmt.respell, Stmt.Written]
      trivial
  | .block b, depth, scope, next, h, hf => by
      rw [Stmt.Written] at h
      rw [Stmt.uses, Stmt.declarations] at hf
      rw [Stmt.respell, Stmt.Written]
      exact Block.Written.respell h hf
  | .label _ name, depth, scope, next, h, hf => by
      rw [Stmt.Written] at h
      rw [Stmt.uses, Stmt.declarations] at hf
      rw [Stmt.respell, Stmt.Written]
      exact ⟨h.1, hf.declared _ List.mem_cons_self h.2⟩
  | .stackAssign _ target, depth, scope, next, h, hf => by
      rw [Stmt.Written] at h
      rw [Stmt.uses] at hf
      rw [Stmt.respell, Stmt.Written]
      exact ⟨h.1, Identifier.name_respell h.2 (hf.used _ List.mem_cons_self h.2)⟩
termination_by structural s => s

/-- Renamed cases can be written down, if the new names can. -/
theorem Case.WrittenSeq.respell : ∀ {cases : List Case} {depth next : Nat},
    Case.WrittenSeq d depth cases → Spelling.Sayable d f (Case.usesSeq next cases)
      (Case.declarationsSeq next cases) →
      Case.WrittenSeq d depth (Case.respellSeq f next cases)
  | [], _, _, _, _ => by
      rw [Case.respellSeq, Case.WrittenSeq]
      trivial
  | ⟨_, none, body⟩ :: rest, depth, next, h, hf => by
      rw [Case.WrittenSeq] at h
      rcases h with ⟨hbody, rfl⟩
      rw [Case.usesSeq, Case.declarationsSeq, Spelling.sayable_append] at hf
      rw [Case.respellSeq, Case.WrittenSeq]
      refine ⟨Block.Written.respell hbody hf.1, ?_⟩
      rw [Case.respellSeq]
  | ⟨_, some l, body⟩ :: rest, depth, next, h, hf => by
      rw [Case.WrittenSeq] at h
      rw [Case.usesSeq, Case.declarationsSeq, Spelling.sayable_append] at hf
      rw [Case.respellSeq, Case.WrittenSeq]
      exact ⟨h.1, Block.Written.respell h.2.1 hf.1, Case.WrittenSeq.respell h.2.2 hf.2⟩
termination_by structural cases => cases

end

end Code

section Declared

mutual

/-- The names that a block declares are those of its declarations. -/
theorem Block.declared_eq_declarations : ∀ (b : Block) (id : Nat),
    b.allStmts.flatMap Stmt.declaresHere = (b.declarations id).map (·.name)
  | ⟨_, stmts⟩, id => by
      rw [Block.allStmts, Block.declarations]
      exact Stmt.declaredSeq_eq_declarations stmts id (id + 1)
termination_by structural b => b

/-- The names declared in statements, in the order of the scopes or of the code. -/
theorem Stmt.declaredSeq_eq_declarations : ∀ (stmts : List Stmt) (scope next : Nat),
    (Stmt.allStmtsSeq stmts).flatMap Stmt.declaresHere
      = (Stmt.declarationsSeq scope next stmts).map (·.name)
  | [], _, _ => rfl
  | s :: rest, scope, next => by
      rw [Stmt.allStmtsSeq, Stmt.declarationsSeq, List.flatMap_cons, List.flatMap_append,
        List.map_append, ← Stmt.declared_eq_declarations s scope next,
        ← Stmt.declaredSeq_eq_declarations rest scope (next + s.scopeCount), List.append_assoc]
termination_by structural stmts => stmts

/-- The names declared in a statement, in the order of the scopes or of the code. -/
theorem Stmt.declared_eq_declarations : ∀ (s : Stmt) (scope next : Nat),
    s.declaresHere ++ s.allInner.flatMap Stmt.declaresHere
      = (s.declarations scope next).map (·.name)
  | .expr _ _, _, _ => rfl
  | .assign _ _ _, _, _ => rfl
  | .decl _ vars _, scope, next => by
      simp only [Stmt.declaresHere, Stmt.allInner, Stmt.declarations, List.flatMap_nil,
        List.append_nil, List.map_map, Function.comp_def]
  | .func _ name params returns body, scope, next => by
      simp only [Stmt.declaresHere, Stmt.allInner, Stmt.declarations, List.map_append,
        List.map_cons, List.map_map, Function.comp_def,
        Block.declared_eq_declarations body (next + 1)]
  | .cond _ _ body, scope, next => by
      simp only [Stmt.declaresHere, Stmt.allInner, Stmt.declarations, List.nil_append]
      exact Block.declared_eq_declarations body next
  | .switch _ _ cases, scope, next => by
      simp only [Stmt.declaresHere, Stmt.allInner, Stmt.declarations, List.nil_append]
      exact Case.declaredSeq_eq_declarations cases next
  | .loop _ ⟨_, pre⟩ _ post body, scope, next => by
      simp only [Stmt.declaresHere, Stmt.allInner, Stmt.declarations, List.nil_append,
        Block.allStmts, List.flatMap_append, List.map_append,
        Stmt.declaredSeq_eq_declarations pre next (next + 1),
        Block.declared_eq_declarations body (next + 1 + Stmt.scopeCountSeq pre),
        Block.declared_eq_declarations post
          (next + 1 + Stmt.scopeCountSeq pre + body.scopeCount)]
  | .brk _, _, _ => rfl
  | .cont _, _, _ => rfl
  | .block b, scope, next => by
      simp only [Stmt.declaresHere, Stmt.allInner, Stmt.declarations, List.nil_append]
      exact Block.declared_eq_declarations b next
  | .label _ _, _, _ => rfl
  | .stackAssign _ _, _, _ => rfl
termination_by structural s => s

theorem Case.declaredSeq_eq_declarations : ∀ (cases : List Case) (next : Nat),
    (Case.allStmtsSeq cases).flatMap Stmt.declaresHere
      = (Case.declarationsSeq next cases).map (·.name)
  | [], _ => rfl
  | ⟨_, _, body⟩ :: rest, next => by
      rw [Case.allStmtsSeq, Case.declarationsSeq, List.flatMap_append, List.map_append,
        Block.declared_eq_declarations body next,
        Case.declaredSeq_eq_declarations rest (next + body.scopeCount)]
termination_by structural cases => cases

end

end Declared

mutual

theorem Object.Written.codes {d : Dialect} : ∀ {o : Object}, o.Written d →
    ∀ code ∈ o.codes, code.Written d 0
  | ⟨_, code, attachments⟩, h => by
      rw [Object.Written] at h
      rw [Object.codes]
      exact List.forall_mem_cons.mpr ⟨h.2.1, Attachment.WrittenSeq.codes h.2.2⟩

theorem Attachment.WrittenSeq.codes {d : Dialect} : ∀ {attachments : List Attachment},
    Attachment.WrittenSeq d attachments →
      ∀ code ∈ Attachment.codesSeq attachments, code.Written d 0
  | [], _ => by
      rw [Attachment.codesSeq]
      exact fun _ h => absurd h List.not_mem_nil
  | .object o :: rest, h => by
      rw [Attachment.WrittenSeq] at h
      rw [Attachment.codesSeq]
      exact List.forall_mem_append.mpr
        ⟨Object.Written.codes h.1, Attachment.WrittenSeq.codes h.2⟩
  | .data _ _ :: rest, h => by
      rw [Attachment.WrittenSeq] at h
      rw [Attachment.codesSeq]
      exact Attachment.WrittenSeq.codes h.2

end

/-- Code that was read can be written down. -/
theorem Reads.written {d : Dialect} {source : String} {code : Block}
    (h : Reads d source code) : code.Written d 0 := by
  rcases h with h | ⟨o, h, hcode⟩
  · exact parseBlock_written h
  · exact (parseObject_written h).codes code hcode

/-- Making all names unique gives a program that can be written down, that is accepted and
    that declares no name twice. -/
theorem makeNamesUnique_written {d : Dialect} {code : Block} {ss : Scopes}
    (hwritten : code.Written d 0) (haccept : analyze d code = .ok ss) :
    ∃ unique ss', makeNamesUnique d ss [] code = .ok unique ∧ analyze d unique = .ok ss' ∧
      unique.Written d 0 ∧ unique.declared.Nodup := by
  have hfound := analyze_found haccept
  rcases makeNamesUnique_walks [] haccept with ⟨st, hgood, hsettled, hrun⟩
  let c : RenameContext := ⟨d, ss, []⟩
  have hapart := RenameContext.apart (c := c) hgood hsettled
  rcases analyze_respell hapart haccept fun decl hdecl hreserved hname =>
    ⟨hdecl, hreserved, hname⟩ with ⟨hanalyze, hcov⟩
  -- A spelling that is the old name, or a candidate for it, is a name.
  have hisName : ∀ decl : Declaration, IsName decl.name → IsName (c.nameOf st decl) := by
    intro decl hname
    rcases hgood.nameOf_spelled decl with h | ⟨n, h⟩
    · exact h.symm ▸ hname
    · exact h.symm ▸ isName_candidate hname n
  have hown : ∀ decl ∈ code.declarations 0,
      c.spelling st decl.scope decl.name = c.nameOf st decl := by
    intro decl hdecl
    rcases hfound.2 decl hdecl with ⟨hreserved, _, symbol, hl⟩
    exact Scopes.spelling_declared (Dialect.builtin?_eq_none hreserved) hl
  refine ⟨_, _, hrun, hanalyze, hwritten.respell ⟨?_, fun decl hdecl hname => ?_⟩, ?_⟩
  -- A use is a builtin, or is spelled as its declaration is.
  · rintro ⟨scope, x⟩ hu hname
    rcases hb : d.builtin? x with _ | b
    · rcases hfound.1 _ hu hb with ⟨⟨decl, symbol⟩, hl⟩
      have hspell : c.spelling st scope x = c.nameOf st decl := Scopes.spelling_declared hb hl
      obtain rfl := (Scopes.lookup_found hl).1
      refine .inr ?_
      show d.Admits (c.spelling st scope decl.name)
      rw [hspell]
      refine ⟨hisName decl hname, ?_⟩
      exact (hgood.nameOf_fresh (hsettled decl (hcov.lookup hl).1.1) rfl).2.1
    · exact .inl ⟨rfl, Scopes.spelling_builtin hb⟩
  · rw [hown decl hdecl]
    exact hisName decl hname
  -- Spellings differ for different declarations, as there is no external name.
  · rw [Block.declared, Block.declared_eq_declarations _ 0, Block.declarations_respell,
      List.map_map]
    refine (analyze_declarations_nodup haccept).map_on fun a ha b hb heq => ?_
    have heq : c.nameOf st a = c.nameOf st b := by
      rw [← hown a ha, ← hown b hb]
      exact heq
    refine (hgood.nameOf_injective (hsettled a ha) (hsettled b hb) heq).resolve_right ?_
    exact fun h => absurd h.1 Bool.false_ne_true

end YulToolchain
