import YulToolchain.Proofs.Names.Fresh
import YulToolchain.Proofs.Rename.Occurrence

/-!
# Giving New Names

The walk that gives new names spells the whole code with the names it ends up with.

A declaration gets its name when the walk first meets it, and what was written with
that name stays written. Names given later do not disturb it, since no declaration
ever gets a second one. So the outcome of a part of the walk can be stated with the
names of any later moment, and `Walks` does: the parts then fit together without
looking at which names were given when.

All names given are different from each other, from the external names and from
the reserved ones. That is an invariant of the state, `Renaming.Good`.

## Main definitions

* `RenameContext.nameOf`: The name of a declaration, given the names so far.
* `Renaming.Good`: The names given so far are fresh.
* `Renaming.Before`: No name is given up.
* `Rename.Walks`: What a part of the walk gives, in the names of any later moment.

## Theorems

* `Rename.name_declares`: Meeting a name settles its declaration.
* `Rename.block_walks`: A block is respelled if its names are found, and all its
  declarations are settled.
* `makeNamesUnique_walks`: So is an accepted program.
-/

namespace YulToolchain

/-- The name of a declaration, given the names so far. External names keep their
    spelling. -/
def RenameContext.nameOf (c : RenameContext) (st : Renaming) (decl : Declaration) : String :=
  if c.external.contains decl.name then decl.name
  else (st.names.lookup decl).getD decl.name

/-- The spelling of code, given the names so far. -/
def RenameContext.spelling (c : RenameContext) (st : Renaming) : Spelling :=
  c.scopes.spelling c.dialect (c.nameOf st)

namespace Renaming

/-- The names given so far are fresh: they are neither empty nor reserved nor
    external, and no two of them are the same. They are spelled like the old ones, apart
    from numbers behind them. -/
structure Good (c : RenameContext) (st : Renaming) : Prop where
  dialect : st.supply.dialect = c.dialect
  external : c.external ⊆ st.supply.used
  used : ∀ p ∈ st.names, p.2 ∈ st.supply.used
  fresh : ∀ p ∈ st.names, p.2 ≠ "" ∧ c.dialect.reserved p.2 = false ∧ p.2 ∉ c.external
  distinct : (st.names.map (·.2)).Nodup
  spelled : ∀ p ∈ st.names, p.2 = p.1.name ∨ ∃ n, p.2 = NameSupply.candidate p.1.name n

/-- No name is given up. -/
def Before (st later : Renaming) : Prop :=
  ∀ decl new, st.names.lookup decl = some new → later.names.lookup decl = some new

/-- A declaration has its name. -/
def Settles (c : RenameContext) (st : Renaming) (decl : Declaration) : Prop :=
  c.external.contains decl.name = true ∨ ∃ new, st.names.lookup decl = some new

theorem Before.refl (st : Renaming) : Before st st := fun _ _ h => h

theorem Before.trans {a b c : Renaming} (hab : Before a b) (hbc : Before b c) : Before a c :=
  fun decl new h => hbc decl new (hab decl new h)

theorem Settles.later {c : RenameContext} {st later : Renaming} {decl : Declaration}
    (h : st.Settles c decl) (hle : st.Before later) : later.Settles c decl := by
  rcases h with h | ⟨new, h⟩
  · exact Or.inl h
  · exact Or.inr ⟨new, hle decl new h⟩

theorem mem_of_lookup {names : List (Declaration × String)} {decl : Declaration} {new : String}
    (h : names.lookup decl = some new) : (decl, new) ∈ names := by
  rcases List.lookup_eq_some_iff.mp h with ⟨before, after, rfl, _⟩
  exact List.mem_append_right _ List.mem_cons_self

/-- Different declarations have different names, unless these are external. -/
theorem Good.nameOf_injective {c : RenameContext} {st : Renaming} (h : st.Good c)
    {decl decl' : Declaration} (hs : st.Settles c decl) (hs' : st.Settles c decl')
    (heq : c.nameOf st decl = c.nameOf st decl') :
    decl = decl' ∨ c.external.contains decl.name = true ∧ decl.name = decl'.name := by
  -- A name that was given is no external one.
  have hnot : ∀ {a b : Declaration} {new : String}, c.external.contains a.name = true →
      st.names.lookup b = some new → a.name ≠ new := by
    rintro a b new ha hb rfl
    exact (h.fresh _ (mem_of_lookup hb)).2.2 (List.contains_iff_mem.mp ha)
  unfold RenameContext.nameOf at heq
  -- Four cases: each of the two names is external or was given.
  by_cases hext : c.external.contains decl.name = true
  · by_cases hext' : c.external.contains decl'.name = true
    · rw [if_pos hext, if_pos hext'] at heq
      exact Or.inr ⟨hext, heq⟩
    · rcases hs'.resolve_left hext' with ⟨new', hnew'⟩
      rw [if_pos hext, if_neg hext', hnew', Option.getD_some] at heq
      exact absurd heq (hnot hext hnew')
  · rcases hs.resolve_left hext with ⟨new, hnew⟩
    by_cases hext' : c.external.contains decl'.name = true
    · rw [if_neg hext, if_pos hext', hnew, Option.getD_some] at heq
      exact absurd heq.symm (hnot hext' hnew)
    · rcases hs'.resolve_left hext' with ⟨new', hnew'⟩
      rw [if_neg hext, if_neg hext', hnew, hnew', Option.getD_some, Option.getD_some] at heq
      -- Names that were given are different for different declarations.
      have hpairs := List.inj_on_of_nodup_map h.distinct (mem_of_lookup hnew)
        (mem_of_lookup hnew') heq
      exact Or.inl (congrArg Prod.fst hpairs)

/-- The name of a declaration that is not external is fresh. -/
theorem Good.nameOf_fresh {c : RenameContext} {st : Renaming} (h : st.Good c)
    {decl : Declaration} (hs : st.Settles c decl) (hext : c.external.contains decl.name = false) :
    c.nameOf st decl ≠ "" ∧ c.dialect.reserved (c.nameOf st decl) = false ∧
      c.nameOf st decl ∉ c.external := by
  rcases hs.resolve_left (by rw [hext]; exact Bool.false_ne_true) with ⟨new, hnew⟩
  rw [RenameContext.nameOf, hext, if_neg Bool.false_ne_true, hnew, Option.getD_some]
  exact h.fresh _ (mem_of_lookup hnew)

/-- A name is the old one or a numbered candidate. -/
theorem Good.nameOf_spelled {c : RenameContext} {st : Renaming} (h : st.Good c)
    (decl : Declaration) : c.nameOf st decl = decl.name ∨
      ∃ n, c.nameOf st decl = NameSupply.candidate decl.name n := by
  rw [RenameContext.nameOf]
  split
  · exact .inl rfl
  · rcases hl : st.names.lookup decl with _ | new
    · exact .inl rfl
    · exact h.spelled _ (mem_of_lookup hl)

theorem good_initial (c : RenameContext) : Good c ⟨.ofUsed c.dialect c.external, []⟩ :=
  ⟨rfl, List.Subset.refl _, fun _ h => absurd h List.not_mem_nil,
    fun _ h => absurd h List.not_mem_nil, List.nodup_nil, fun _ h => absurd h List.not_mem_nil⟩

/-- A declaration gets the next name of the supply. -/
theorem Good.next {c : RenameContext} {st : Renaming} (h : st.Good c) (decl : Declaration) :
    Good c ⟨(st.supply.next decl.name).2, (decl, (st.supply.next decl.name).1) :: st.names⟩ := by
  rcases st.supply.next_fresh decl.name with ⟨hempty, hused, hreserved⟩
  rw [h.dialect] at hreserved
  -- External names, used names, fresh names, distinct names, and what they look like.
  refine ⟨by rw [NameSupply.dialect_next, h.dialect], ?_, ?_, ?_, ?_, ?_⟩
  · rw [NameSupply.used_next]
    exact List.Subset.trans h.external (List.subset_cons_self _ _)
  · intro p hp
    rw [NameSupply.used_next]
    rcases List.mem_cons.mp hp with rfl | hp
    · exact List.mem_cons_self
    · exact List.mem_cons_of_mem _ (h.used p hp)
  · intro p hp
    rcases List.mem_cons.mp hp with rfl | hp
    · exact ⟨hempty, hreserved, fun hmem => hused (h.external hmem)⟩
    · exact h.fresh p hp
  · refine List.nodup_cons.mpr ⟨fun hmem => ?_, h.distinct⟩
    rcases List.mem_map.mp hmem with ⟨p, hp, heq⟩
    have hp' := h.used p hp
    rw [heq] at hp'
    exact hused hp'
  · exact List.forall_mem_cons.mpr ⟨st.supply.next_spelled decl.name, h.spelled⟩

/-- A new name leaves those given before as they are. -/
theorem before_cons {st : Renaming} {supply : NameSupply} {decl : Declaration} {new : String}
    (h : st.names.lookup decl = none) : Before st ⟨supply, (decl, new) :: st.names⟩ := by
  intro decl' new' h'
  have hne : decl' ≠ decl := by
    rintro rfl
    exact absurd (h'.symm.trans h) (by rintro ⟨⟩)
  simp only [List.lookup_cons, beq_eq_false_iff_ne.mpr hne, h']

end Renaming

namespace Rename

open Renaming

/-- What a part of the walk gives, stated in the names of any later moment, and the
    declarations that have their names afterwards. -/
def Walks (c : RenameContext) {α : Type} (m : Walk α) (result : Renaming → α)
    (settled : List Declaration) : Prop :=
  ∀ st, Good c st → ∃ st', Good c st' ∧ Before st st' ∧ (∀ decl ∈ settled, Settles c st' decl) ∧
    ∀ later, Before st' later → m.run st = .ok (result later, st')

namespace Walks

variable {c : RenameContext} {α β : Type}

/-- A constant names nothing. -/
theorem pure {r : Renaming → α} {a : α} (h : ∀ later, r later = a) :
    Walks c (pure a : Walk α) r [] := by
  intro st hgood
  refine ⟨st, hgood, .refl st, fun _ hd => absurd hd List.not_mem_nil, fun later _ => ?_⟩
  rw [h later]
  rfl

/-- What is given first is still the same when the rest has been walked. -/
theorem bind {m : Walk α} {k : α → Walk β} {r : Renaming → α} {r' : α → Renaming → β}
    {ds ds' : List Declaration} (hm : Walks c m r ds) (hk : ∀ a, Walks c (k a) (r' a) ds') :
    Walks c (m >>= k) (fun later => r' (r later) later) (ds ++ ds') := by
  intro st hgood
  rcases hm st hgood with ⟨st₁, hgood₁, hle₁, hsettled₁, hrun₁⟩
  rcases hk (r st₁) st₁ hgood₁ with ⟨st₂, hgood₂, hle₂, hsettled₂, hrun₂⟩
  refine ⟨st₂, hgood₂, hle₁.trans hle₂, fun decl hd => ?_, fun later hlater => ?_⟩
  · rcases List.mem_append.mp hd with hd | hd
    · exact (hsettled₁ decl hd).later hle₂
    · exact hsettled₂ decl hd
  · have hsame : r later = r st₁ := by
      have h := (hrun₁ later (hle₂.trans hlater)).symm.trans (hrun₁ st₁ (.refl st₁))
      exact congrArg Prod.fst (Except.ok.inj h)
    rw [StateT.run_bind, hrun₁ st₁ (.refl st₁)]
    beta_reduce
    rw [hsame]
    exact hrun₂ later hlater

/-- The last step of a part. -/
theorem map {m : Walk α} {k : α → β} {r : Renaming → α} {ds : List Declaration}
    (hm : Walks c m r ds) :
    Walks c (m >>= fun a => Pure.pure (k a)) (fun later => k (r later)) ds := by
  have h := hm.bind fun a => pure (c := c) (a := k a) (r := fun _ => k a) fun _ => rfl
  rwa [List.append_nil] at h

theorem congr {m : Walk α} {r r' : Renaming → α} {ds ds' : List Declaration}
    (h : Walks c m r ds) (hr : ∀ later, r' later = r later) (hds : ds' ⊆ ds) :
    Walks c m r' ds' := by
  intro st hgood
  rcases h st hgood with ⟨st', hgood', hle, hsettled, hrun⟩
  refine ⟨st', hgood', hle, fun decl hd => hsettled decl (hds hd), fun later hlater => ?_⟩
  rw [hr later]
  exact hrun later hlater

end Walks

section Names

variable {c : RenameContext} {scope line : Nat} {x : String}

/-- A name is looked up, and given if it has not been. -/
theorem run_name {decl : Declaration} {symbol : Symbol} (hb : c.dialect.builtin? x = none)
    (hext : c.external.contains x = false) (hl : c.scopes.lookup scope x = some (decl, symbol))
    (st : Renaming) : (name c scope line x).run st = match st.names.lookup decl with
      | some new => .ok (new, st)
      | none => .ok ((st.supply.next x).1,
          ⟨(st.supply.next x).2, (decl, (st.supply.next x).1) :: st.names⟩) := by
  simp only [name, hb, hext, hl, Option.isSome_none, Bool.or_self, Bool.false_eq_true, if_false,
    StateT.run_bind, StateT.run_get]
  show (match st.names.lookup decl with
    | some new => (Pure.pure new : Walk String)
    | none => _).run st = _
  cases st.names.lookup decl <;> rfl

/-- Meeting a name settles its declaration. -/
theorem name_declares (line : Nat) {decl : Declaration} {symbol : Symbol}
    (hb : c.dialect.builtin? x = none)
    (hl : c.scopes.lookup scope x = some (decl, symbol)) :
    Walks c (name c scope line x) (fun later => c.spelling later scope x) [decl] := by
  have hspell : ∀ later, c.spelling later scope x = c.nameOf later decl :=
    fun later => Scopes.spelling_declared hb hl
  obtain rfl := (Scopes.lookup_found hl).1
  intro st hgood
  simp only [List.mem_singleton, forall_eq, hspell]
  -- An external name is kept.
  by_cases hext : c.external.contains decl.name = true
  · refine ⟨st, hgood, .refl st, Or.inl hext, fun later _ => ?_⟩
    rw [RenameContext.nameOf, if_pos hext]
    simp only [name, hext, Bool.or_true, if_true]
    rfl
  · rw [Bool.not_eq_true] at hext
    have hgiven : ∀ {later : Renaming} {new : String}, later.names.lookup decl = some new →
        c.nameOf later decl = new := by
      intro later new h
      rw [RenameContext.nameOf, hext, if_neg Bool.false_ne_true, h, Option.getD_some]
    rw [run_name hb hext hl]
    rcases hnew : st.names.lookup decl with _ | new
    · -- The declaration is met for the first time.
      have hfound : ((decl, (st.supply.next decl.name).1) :: st.names).lookup decl
          = some (st.supply.next decl.name).1 := by
        rw [List.lookup_cons, beq_self_eq_true]
      refine ⟨_, hgood.next decl, before_cons hnew, Or.inr ⟨_, hfound⟩, fun later hlater => ?_⟩
      rw [hgiven (hlater decl _ hfound)]
    · refine ⟨st, hgood, .refl st, Or.inr ⟨new, hnew⟩, fun later hlater => ?_⟩
      rw [hgiven (hlater decl _ hnew)]

/-- A builtin is kept. -/
theorem name_builtin {b : Builtin} (hb : c.dialect.builtin? x = some b) :
    Walks c (name c scope line x) (fun later => c.spelling later scope x) [] := by
  have hname : name c scope line x = Pure.pure x := by
    simp only [name, hb, Option.isSome_some, Bool.true_or, if_true]
  rw [hname]
  exact Walks.pure fun later => Scopes.spelling_builtin hb

/-- A name that is found is respelled. -/
theorem name_walks (line : Nat) (h : c.scopes.Finds c.dialect (scope, x)) :
    Walks c (name c scope line x) (fun later => c.spelling later scope x) [] := by
  rcases hb : c.dialect.builtin? x with _ | b
  · rcases h hb with ⟨⟨decl, symbol⟩, hl⟩
    exact (name_declares line hb hl).congr (fun _ => rfl) (List.nil_subset _)
  · exact name_builtin hb

/-- A name that is declared is respelled, and its declaration is settled. -/
theorem name_settles (line : Nat) (h : c.scopes.Keeps c.dialect ⟨scope, x⟩) :
    Walks c (name c scope line x) (fun later => c.spelling later scope x) [⟨scope, x⟩] := by
  rcases h with ⟨hreserved, _, symbol, hl⟩
  exact name_declares line (Dialect.builtin?_eq_none hreserved) hl

theorem typedNames_walks : ∀ (vars : List TypedName),
    (∀ v ∈ vars, c.scopes.Keeps c.dialect ⟨scope, v.name⟩) →
      Walks c (typedNames c scope vars)
        (fun later => vars.map (·.respell (c.spelling later scope)))
        (vars.map fun v => ⟨scope, v.name⟩)
  | [], _ => by
      rw [typedNames, List.mapM_nil]
      exact Walks.pure fun _ => rfl
  | v :: rest, h => by
      rw [List.forall_mem_cons] at h
      rw [typedNames, List.mapM_cons]
      have hv := (name_settles v.line h.1).map
        (k := fun new => ({ v with name := new } : TypedName))
      exact hv.bind fun v' => (typedNames_walks rest h.2).map (k := (v' :: ·))

theorem identifiers_walks : ∀ {ids : List Identifier},
    (∀ id ∈ ids, c.scopes.Finds c.dialect (scope, id.name)) →
      Walks c (identifiers c scope ids)
        (fun later => ids.map (·.respell (c.spelling later scope))) []
  | [], _ => by
      rw [identifiers, List.mapM_nil]
      exact Walks.pure fun _ => rfl
  | id :: rest, h => by
      rw [List.forall_mem_cons] at h
      rw [identifiers, List.mapM_cons]
      have hid := (name_walks id.line h.1).map
        (k := fun new => ({ id with name := new } : Identifier))
      exact hid.bind fun id' => (identifiers_walks h.2).map (k := (id' :: ·))

end Names

section Code

variable {c : RenameContext} {scope : Nat}

mutual

/-- An expression whose names are found is respelled. -/
theorem expr_walks : ∀ {e : Expr}, (∀ x ∈ e.uses, c.scopes.Finds c.dialect (scope, x)) →
    Walks c (expr c scope e) (fun later => e.respell (c.spelling later scope)) []
  | .literal l, _ => by
      rw [expr]
      exact Walks.pure fun _ => by rw [Expr.respell]
  | .ident line x, h => by
      rw [Expr.uses, List.forall_mem_singleton] at h
      rw [expr]
      exact (name_walks line h).map.congr (fun _ => by rw [Expr.respell]) (List.Subset.refl _)
  | .instr line op args, h => by
      rw [Expr.uses] at h
      rw [expr]
      exact (exprs_walks h).map.congr (fun _ => by rw [Expr.respell]) (List.Subset.refl _)
  | .call line x args, h => by
      rw [Expr.uses, List.forall_mem_cons] at h
      rw [expr]
      exact ((name_walks line h.1).bind fun new => (exprs_walks h.2).map).congr
        (fun _ => by rw [Expr.respell]) (List.nil_subset _)
termination_by structural e => e

theorem exprs_walks : ∀ {es : List Expr},
    (∀ x ∈ Expr.usesAll es, c.scopes.Finds c.dialect (scope, x)) →
      Walks c (exprs c scope es) (fun later => Expr.respellAll (c.spelling later scope) es) []
  | [], _ => by
      rw [exprs]
      exact Walks.pure fun _ => by rw [Expr.respellAll]
  | e :: rest, h => by
      rw [Expr.usesAll, List.forall_mem_append] at h
      rw [exprs]
      exact ((exprs_walks h.2).bind fun rest' => (expr_walks h.1).map).congr
        (fun _ => by rw [Expr.respellAll]) (List.nil_subset _)
termination_by structural es => es

end

theorem finds_uses {xs : List String}
    (h : ∀ u ∈ xs.map (Prod.mk scope), c.scopes.Finds c.dialect u) :
    ∀ x ∈ xs, c.scopes.Finds c.dialect (scope, x) :=
  fun _ hx => h _ (List.mem_map_of_mem hx)

theorem optionalExpr_walks : ∀ {value : Option Expr},
    (∀ x ∈ (value.map Expr.uses).getD [], c.scopes.Finds c.dialect (scope, x)) →
      Walks c (optionalExpr c scope value)
        (fun later => value.map (·.respell (c.spelling later scope))) []
  | none, _ => Walks.pure fun _ => rfl
  | some _, h => (expr_walks h).map

end Code

section Statements

variable {c : RenameContext}

mutual

/-- A block whose names are found is respelled, and all it declares is settled. -/
theorem block_walks : ∀ {b : Block} {id : Nat},
    c.scopes.Locates c.dialect (b.uses id) (b.declarations id) →
      Walks c (block c id b) (fun later => b.respell (c.spelling later) id) (b.declarations id)
  | ⟨line, seq⟩, id, h => by
      rw [Block.uses, Block.declarations] at h
      rw [block, Block.declarations]
      exact (stmts_walks h).map.congr (fun _ => by rw [Block.respell]) (List.Subset.refl _)
termination_by structural b => b

/-- The walk over statements ends with the renamed statements, and all their declarations have
    names. -/
theorem stmts_walks : ∀ {seq : List Stmt} {scope next : Nat},
    c.scopes.Locates c.dialect (Stmt.usesSeq scope next seq)
      (Stmt.declarationsSeq scope next seq) →
      Walks c (stmts c scope next seq)
        (fun later => Stmt.respellSeq (c.spelling later) scope next seq)
        (Stmt.declarationsSeq scope next seq)
  | [], _, _, _ => by
      rw [stmts]
      exact Walks.pure fun _ => by rw [Stmt.respellSeq]
  | s :: rest, scope, next, h => by
      rw [Stmt.usesSeq, Stmt.declarationsSeq, Scopes.locates_append] at h
      rw [stmts, Stmt.declarationsSeq]
      exact ((stmt_walks h.1).bind fun s' => (stmts_walks h.2).map).congr
        (fun _ => by rw [Stmt.respellSeq]) (List.Subset.refl _)
termination_by structural seq => seq

/-- A statement whose names are found is respelled, and all it declares is settled. -/
theorem stmt_walks : ∀ {s : Stmt} {scope next : Nat},
    c.scopes.Locates c.dialect (s.uses scope next) (s.declarations scope next) →
      Walks c (stmt c scope next s) (fun later => s.respell (c.spelling later) scope next)
        (s.declarations scope next)
  | .expr line e, scope, next, h => by
      rw [Stmt.uses] at h
      rw [stmt, Stmt.declarations]
      exact (expr_walks (finds_uses h.1)).map.congr (fun _ => by rw [Stmt.respell])
        (List.Subset.refl _)
  | .assign line targets value, scope, next, h => by
      rw [Stmt.uses] at h
      have huses := List.forall_mem_append.mp (finds_uses h.1)
      rw [stmt, Stmt.declarations]
      exact ((identifiers_walks fun t ht => huses.1 _ (List.mem_map_of_mem ht)).bind fun targets' =>
        (expr_walks huses.2).map).congr (fun _ => by rw [Stmt.respell]) (List.nil_subset _)
  | .decl line vars value, scope, next, h => by
      rw [Stmt.uses, Stmt.declarations] at h
      rw [stmt, Stmt.declarations]
      exact ((typedNames_walks _ (List.forall_mem_map.mp h.2)).bind fun vars' =>
        (optionalExpr_walks (finds_uses h.1)).map).congr (fun _ => by rw [Stmt.respell])
        (List.subset_append_left _ _)
  | .func line name params returns body, scope, next, h => by
      rw [Stmt.uses, Stmt.declarations] at h
      rcases h with ⟨huses, hdecls⟩
      rw [List.forall_mem_append, List.forall_mem_cons, List.forall_mem_map,
        List.forall_mem_append] at hdecls
      rcases hdecls with ⟨⟨hname, hparams, hreturns⟩, hbody⟩
      rw [stmt, Stmt.declarations]
      refine ((name_settles line hname).bind fun name' =>
        (typedNames_walks params hparams).bind fun params' =>
        (typedNames_walks returns hreturns).bind fun returns' =>
        (block_walks ⟨huses, hbody⟩).map).congr (fun _ => by rw [Stmt.respell]) ?_
      -- The name itself, the parameters, the results, and what the body declares.
      intro decl hd
      simpa only [List.map_append, List.mem_append, List.mem_cons, List.not_mem_nil, or_false,
        or_assoc] using hd
  | .cond line test body, scope, next, h => by
      rw [Stmt.uses, Stmt.declarations] at h
      have huses := List.forall_mem_append.mp h.1
      rw [stmt, Stmt.declarations]
      exact ((expr_walks (finds_uses huses.1)).bind fun test' =>
        (block_walks ⟨huses.2, h.2⟩).map).congr (fun _ => by rw [Stmt.respell])
        (List.Subset.refl _)
  | .switch line subject cs, scope, next, h => by
      rw [Stmt.uses, Stmt.declarations] at h
      have huses := List.forall_mem_append.mp h.1
      rw [stmt, Stmt.declarations]
      exact ((expr_walks (finds_uses huses.1)).bind fun subject' =>
        (cases_walks ⟨huses.2, h.2⟩).map).congr (fun _ => by rw [Stmt.respell])
        (List.Subset.refl _)
  | .loop line ⟨preLine, pre⟩ test post body, scope, next, h => by
      rw [Stmt.uses, Stmt.declarations] at h
      simp only [Scopes.Locates, List.forall_mem_append] at h
      rcases h with ⟨⟨⟨⟨upre, utest⟩, ubody⟩, upost⟩, ⟨dpre, dbody⟩, dpost⟩
      have hcount : next + (Block.mk preLine pre).scopeCount
          = next + 1 + Stmt.scopeCountSeq pre := by
        rw [Block.scopeCount]
        omega
      rw [stmt, Stmt.declarations]
      simp only [hcount]
      -- The walk takes the post part before the body, though its scopes have the later numbers.
      refine ((stmts_walks ⟨upre, dpre⟩).bind fun pre' =>
        (expr_walks (finds_uses utest)).bind fun test' =>
        (block_walks ⟨upost, dpost⟩).bind fun post' =>
        (block_walks ⟨ubody, dbody⟩).map).congr (fun _ => by rw [Stmt.respell]) ?_
      intro decl hd
      simp only [List.mem_append, List.nil_append] at hd ⊢
      tauto
  | .brk line, _, _, _ => by
      rw [stmt, Stmt.declarations]
      exact Walks.pure fun _ => by rw [Stmt.respell]
  | .cont line, _, _, _ => by
      rw [stmt, Stmt.declarations]
      exact Walks.pure fun _ => by rw [Stmt.respell]
  | .block b, scope, next, h => by
      rw [Stmt.uses, Stmt.declarations] at h
      rw [stmt, Stmt.declarations]
      exact (block_walks h).map.congr (fun _ => by rw [Stmt.respell]) (List.Subset.refl _)
  | .label line name, scope, next, h => by
      rw [Stmt.uses, Stmt.declarations] at h
      rw [stmt, Stmt.declarations]
      exact (name_settles line (List.forall_mem_singleton.mp h.2)).map.congr
        (fun _ => by rw [Stmt.respell]) (List.Subset.refl _)
  | .stackAssign line target, scope, next, h => by
      rw [Stmt.uses] at h
      rw [stmt, Stmt.declarations]
      exact (name_walks target.line (List.forall_mem_singleton.mp h.1)).map.congr
        (fun _ => by rw [Stmt.respell]; rfl) (List.Subset.refl _)
termination_by structural s => s

theorem cases_walks : ∀ {cs : List Case} {next : Nat},
    c.scopes.Locates c.dialect (Case.usesSeq next cs) (Case.declarationsSeq next cs) →
      Walks c (cases c next cs) (fun later => Case.respellSeq (c.spelling later) next cs)
        (Case.declarationsSeq next cs)
  | [], _, _ => by
      rw [cases, Case.declarationsSeq]
      exact Walks.pure fun _ => by rw [Case.respellSeq]
  | ⟨line, value, body⟩ :: rest, next, h => by
      rw [Case.usesSeq, Case.declarationsSeq, Scopes.locates_append] at h
      rw [cases, Case.declarationsSeq]
      exact ((block_walks h.1).bind fun body' => (cases_walks h.2).map).congr
        (fun _ => by rw [Case.respellSeq]) (List.Subset.refl _)
termination_by structural cs => cs

end

end Statements

end Rename

/-- The program that is made is the old one, spelled with fresh names for all that it
    declares. -/
theorem makeNamesUnique_walks {d : Dialect} {ss : Scopes} (external : List String) {code : Block}
    (h : analyze d code = .ok ss) :
    ∃ st : Renaming, st.Good ⟨d, ss, external⟩ ∧
      (∀ decl ∈ code.declarations 0, st.Settles ⟨d, ss, external⟩ decl) ∧
      makeNamesUnique d ss external code
        = .ok (code.respell (RenameContext.spelling ⟨d, ss, external⟩ st) 0) := by
  have hwalk := Rename.block_walks (c := ⟨d, ss, external⟩) (analyze_found h)
  rcases hwalk _ (Renaming.good_initial _) with ⟨st, hgood, _, hsettled, hrun⟩
  refine ⟨st, hgood, hsettled, ?_⟩
  rw [makeNamesUnique, hrun st (.refl st)]
  rfl

end YulToolchain
