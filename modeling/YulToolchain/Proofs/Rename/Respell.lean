import YulToolchain.Pass.Rename
import YulToolchain.Proofs.Static.Readable

/-!
# The Same Code in Other Names

Code with its names spelled anew and nothing else changed.

How a name is spelled depends on the scope it is used in, so a spelling takes the
number of the scope besides the name. The scopes are numbered as by the analysis.
Unlike the walk that gives new names, `respell` gives none: all spellings are known
beforehand. What the walk computes bit by bit is stated with it as a whole.

## Main definitions

* `Spelling`: How names are spelled, by the scope they are used in.
* `Expr.respell`, `Stmt.respell`, `Block.respell`: Code with names spelled anew.
* `Stmt.declarations`, `Block.declarations`: What code declares, with the numbers of
  the scopes.
* `Scopes.spelling`: The spelling that follows from new names for declarations.

## Theorems

* `Scopes.lookup_found`: What is found for a name is declared under that name.
* `Block.scopeCount_respell`: Code opens the same scopes in other names.
* `Block.Readable.respell`: Code can be read in other names.
* `Block.initsStay_respell`: Loops are left from the same places.
-/

namespace YulToolchain

/-- How names are spelled, by the number of the scope they are used in. -/
abbrev Spelling := Nat → String → String

/-- A declared name spelled anew. -/
def TypedName.respell (g : String → String) (v : TypedName) : TypedName :=
  { v with name := g v.name }

/-- A used name spelled anew. -/
def Identifier.respell (g : String → String) (id : Identifier) : Identifier :=
  { id with name := g id.name }

mutual

/-- An expression with its names spelled anew. -/
def Expr.respell (g : String → String) : Expr → Expr
  | .literal l => .literal l
  | .ident line x => .ident line (g x)
  | .instr line op args => .instr line op (Expr.respellAll g args)
  | .call line x args => .call line (g x) (Expr.respellAll g args)

/-- Some expressions with their names spelled anew. -/
def Expr.respellAll (g : String → String) : List Expr → List Expr
  | [] => []
  | e :: rest => e.respell g :: Expr.respellAll g rest

end

mutual

/-- A block with a number and its names spelled anew. -/
def Block.respell (f : Spelling) (id : Nat) : Block → Block
  | ⟨line, stmts⟩ => ⟨line, Stmt.respellSeq f id (id + 1) stmts⟩

/-- Statements in a scope with their names spelled anew. The scopes they open are
    numbered from `next` on. -/
def Stmt.respellSeq (f : Spelling) (scope next : Nat) : List Stmt → List Stmt
  | [] => []
  | s :: rest =>
    s.respell f scope next :: Stmt.respellSeq f scope (next + s.scopeCount) rest

/-- A statement in a scope with its names spelled anew. -/
def Stmt.respell (f : Spelling) (scope next : Nat) : Stmt → Stmt
  | .expr line e => .expr line (e.respell (f scope))
  | .assign line targets value =>
    .assign line (targets.map (·.respell (f scope))) (value.respell (f scope))
  | .decl line vars value =>
    .decl line (vars.map (·.respell (f scope))) (value.map (·.respell (f scope)))
  | .func line name params returns body =>
    .func line (f scope name) (params.map (·.respell (f next))) (returns.map (·.respell (f next)))
      (body.respell f (next + 1))
  | .cond line test body => .cond line (test.respell (f scope)) (body.respell f next)
  | .switch line subject cases =>
    .switch line (subject.respell (f scope)) (Case.respellSeq f next cases)
  | .loop line ⟨preLine, pre⟩ test post body =>
    .loop line ⟨preLine, Stmt.respellSeq f next (next + 1) pre⟩ (test.respell (f next))
      (post.respell f (next + 1 + Stmt.scopeCountSeq pre + body.scopeCount))
      (body.respell f (next + 1 + Stmt.scopeCountSeq pre))
  | .brk line => .brk line
  | .cont line => .cont line
  | .block b => .block (b.respell f next)
  | .label line name => .label line (f scope name)
  | .stackAssign line target => .stackAssign line (target.respell (f scope))

/-- The cases of a switch with their names spelled anew. -/
def Case.respellSeq (f : Spelling) (next : Nat) : List Case → List Case
  | [] => []
  | ⟨line, value, body⟩ :: rest =>
    ⟨line, value, body.respell f next⟩ :: Case.respellSeq f (next + body.scopeCount) rest

end

mutual

/-- What a block with a number declares. -/
def Block.declarations (id : Nat) : Block → List Declaration
  | ⟨_, stmts⟩ => Stmt.declarationsSeq id (id + 1) stmts

/-- What statements in a scope declare. -/
def Stmt.declarationsSeq (scope next : Nat) : List Stmt → List Declaration
  | [] => []
  | s :: rest =>
    s.declarations scope next ++ Stmt.declarationsSeq scope (next + s.scopeCount) rest

/-- What a statement in a scope declares, there and in the scopes that it opens. -/
def Stmt.declarations (scope next : Nat) : Stmt → List Declaration
  | .expr _ _ => []
  | .assign _ _ _ => []
  | .decl _ vars _ => vars.map fun v => ⟨scope, v.name⟩
  | .func _ name params returns body =>
    ⟨scope, name⟩ :: ((params ++ returns).map fun v => ⟨next, v.name⟩)
      ++ body.declarations (next + 1)
  | .cond _ _ body => body.declarations next
  | .switch _ _ cases => Case.declarationsSeq next cases
  | .loop _ ⟨_, pre⟩ _ post body =>
    Stmt.declarationsSeq next (next + 1) pre
      ++ body.declarations (next + 1 + Stmt.scopeCountSeq pre)
      ++ post.declarations (next + 1 + Stmt.scopeCountSeq pre + body.scopeCount)
  | .brk _ => []
  | .cont _ => []
  | .block b => b.declarations next
  | .label _ name => [⟨scope, name⟩]
  | .stackAssign _ _ => []

/-- What the cases of a switch declare. -/
def Case.declarationsSeq (next : Nat) : List Case → List Declaration
  | [] => []
  | ⟨_, _, body⟩ :: rest =>
    body.declarations next ++ Case.declarationsSeq (next + body.scopeCount) rest

end

/-- The spelling that follows from new names for declarations. Builtins are not
    declared and keep theirs. -/
def Scopes.spelling (d : Dialect) (ss : Scopes) (names : Declaration → String) : Spelling :=
  fun scope x =>
    if (d.builtin? x).isSome then x
    else match ss.lookup scope x with
      | some (decl, _) => names decl
      | none => x

namespace Scopes

variable {d : Dialect} {ss : Scopes} {names : Declaration → String} {scope : Nat} {x : String}

theorem spelling_builtin {b : Builtin} (h : d.builtin? x = some b) :
    ss.spelling d names scope x = x := by
  simp only [spelling, h, Option.isSome_some, if_true]

theorem spelling_declared {decl : Declaration} {symbol : Symbol} (hb : d.builtin? x = none)
    (h : ss.lookup scope x = some (decl, symbol)) : ss.spelling d names scope x = names decl := by
  simp only [spelling, hb, Option.isSome_none, Bool.false_eq_true, if_false, h]

/-- What is found for a name is declared under that name by a scope around. -/
theorem lookup_found {decl : Declaration} {symbol : Symbol}
    (h : ss.lookup scope x = some (decl, symbol)) :
    decl.name = x ∧ ∃ s, (decl.scope, s) ∈ ss.chain scope ∧ s.find? x = some symbol := by
  -- By induction on the chain; the search goes on where a scope does not have the name.
  have hin : ∀ (chain : List (Nat × Scope)) (crossed : Bool),
      lookupIn x crossed chain = some (decl, symbol) →
        decl.name = x ∧ ∃ s, (decl.scope, s) ∈ chain ∧ s.find? x = some symbol := by
    intro chain
    induction chain with
    | nil => intro crossed h; exact absurd h (by rintro ⟨⟩)
    | cons e outer ih =>
        intro crossed h
        rcases e with ⟨id, s⟩
        simp only [lookupIn] at h
        rcases hf : s.find? x with _ | symbol'
        · simp only [hf] at h
          rcases ih _ h with ⟨hname, t, ht, hfind⟩
          exact ⟨hname, t, List.mem_cons_of_mem _ ht, hfind⟩
        · simp only [hf] at h
          by_cases hc : (crossed && symbol'.isVariable) = true
          · rw [if_pos hc] at h
            exact absurd h (by rintro ⟨⟩)
          · rw [if_neg hc, Option.some.injEq, Prod.mk.injEq] at h
            rcases h with ⟨rfl, rfl⟩
            exact ⟨rfl, s, List.mem_cons_self, hf⟩
  exact hin _ _ h

theorem spelling_congr {scope' : Nat} (h : ss.lookup scope x = ss.lookup scope' x) :
    ss.spelling d names scope x = ss.spelling d names scope' x := by
  simp only [spelling, h]

end Scopes

@[simp]
theorem Expr.line_respell (g : String → String) (e : Expr) : (e.respell g).line = e.line := by
  cases e <;> rfl

@[simp]
theorem Expr.length_respellAll (g : String → String) (es : List Expr) :
    (Expr.respellAll g es).length = es.length := by
  induction es with
  | nil => rw [Expr.respellAll]
  | cons e rest ih => rw [Expr.respellAll, List.length_cons, List.length_cons, ih]

section Counts

variable (f : Spelling)

mutual

/-- A block opens as many scopes in other names. -/
@[simp]
theorem Block.scopeCount_respell : ∀ (b : Block) (id : Nat),
    (b.respell f id).scopeCount = b.scopeCount
  | ⟨_, stmts⟩, id => by
      rw [Block.respell, Block.scopeCount, Block.scopeCount, Stmt.scopeCountSeq_respell]

/-- Renaming opens as many scopes. -/
@[simp]
theorem Stmt.scopeCountSeq_respell : ∀ (stmts : List Stmt) (scope next : Nat),
    Stmt.scopeCountSeq (Stmt.respellSeq f scope next stmts) = Stmt.scopeCountSeq stmts
  | [], _, _ => by rw [Stmt.respellSeq]
  | s :: rest, scope, next => by
      rw [Stmt.respellSeq, Stmt.scopeCountSeq, Stmt.scopeCountSeq, Stmt.scopeCount_respell,
        Stmt.scopeCountSeq_respell]

/-- Renaming a statement opens as many scopes. -/
@[simp]
theorem Stmt.scopeCount_respell : ∀ (s : Stmt) (scope next : Nat),
    (s.respell f scope next).scopeCount = s.scopeCount
  | .func _ _ _ _ body, _, _ => by
      rw [Stmt.respell, Stmt.scopeCount, Stmt.scopeCount, Block.scopeCount_respell]
  | .cond _ _ body, _, _ => by
      rw [Stmt.respell, Stmt.scopeCount, Stmt.scopeCount, Block.scopeCount_respell]
  | .switch _ _ cases, _, _ => by
      rw [Stmt.respell, Stmt.scopeCount, Stmt.scopeCount, Case.scopeCountSeq_respell]
  | .loop _ ⟨_, pre⟩ _ post body, _, _ => by
      rw [Stmt.respell, Stmt.scopeCount, Stmt.scopeCount, Block.scopeCount, Block.scopeCount,
        Stmt.scopeCountSeq_respell, Block.scopeCount_respell, Block.scopeCount_respell]
  | .block b, _, _ => by
      rw [Stmt.respell, Stmt.scopeCount, Stmt.scopeCount, Block.scopeCount_respell]
  | .expr _ _, _, _ => by simp only [Stmt.respell, Stmt.scopeCount]
  | .assign _ _ _, _, _ => by simp only [Stmt.respell, Stmt.scopeCount]
  | .decl _ _ _, _, _ => by simp only [Stmt.respell, Stmt.scopeCount]
  | .brk _, _, _ => by rw [Stmt.respell]
  | .cont _, _, _ => by rw [Stmt.respell]
  | .label _ _, _, _ => by simp only [Stmt.respell, Stmt.scopeCount]
  | .stackAssign _ _, _, _ => by simp only [Stmt.respell, Stmt.scopeCount]

@[simp]
theorem Case.scopeCountSeq_respell : ∀ (cases : List Case) (next : Nat),
    Case.scopeCountSeq (Case.respellSeq f next cases) = Case.scopeCountSeq cases
  | [], _ => by rw [Case.respellSeq]
  | ⟨_, _, body⟩ :: rest, next => by
      rw [Case.respellSeq, Case.scopeCountSeq, Case.scopeCountSeq, Block.scopeCount_respell,
        Case.scopeCountSeq_respell]

end

end Counts

mutual

theorem Expr.Readable.respell (g : String → String) : ∀ {e : Expr}, e.Readable →
    (e.respell g).Readable
  | .literal _, h => by rwa [Expr.respell]
  | .ident _ _, _ => by rw [Expr.respell, Expr.Readable]; trivial
  | .instr _ _ args, h => by
      rw [Expr.Readable] at h
      rw [Expr.respell, Expr.Readable]
      exact ⟨h.1, Expr.ReadableAll.respell g h.2⟩
  | .call _ _ args, h => by
      rw [Expr.Readable] at h
      rw [Expr.respell, Expr.Readable]
      exact Expr.ReadableAll.respell g h

theorem Expr.ReadableAll.respell (g : String → String) : ∀ {es : List Expr},
    Expr.ReadableAll es → Expr.ReadableAll (Expr.respellAll g es)
  | [], _ => by rw [Expr.respellAll, Expr.ReadableAll]; trivial
  | e :: rest, h => by
      rw [Expr.ReadableAll] at h
      rw [Expr.respellAll, Expr.ReadableAll]
      exact ⟨Expr.Readable.respell g h.1, Expr.ReadableAll.respell g h.2⟩

end

mutual

/-- A block can be read in other names. -/
theorem Block.Readable.respell (f : Spelling) : ∀ {b : Block} (id : Nat), b.Readable →
    (b.respell f id).Readable
  | ⟨_, stmts⟩, id, h => by
      rw [Block.Readable] at h
      rw [Block.respell, Block.Readable]
      exact Stmt.ReadableSeq.respell f _ _ h

/-- Renamed statements are readable. -/
theorem Stmt.ReadableSeq.respell (f : Spelling) : ∀ {stmts : List Stmt} (scope next : Nat),
    Stmt.ReadableSeq stmts → Stmt.ReadableSeq (Stmt.respellSeq f scope next stmts)
  | [], _, _, _ => by rw [Stmt.respellSeq, Stmt.ReadableSeq]; trivial
  | s :: rest, _, _, h => by
      rw [Stmt.ReadableSeq] at h
      rw [Stmt.respellSeq, Stmt.ReadableSeq]
      exact ⟨Stmt.Readable.respell f _ _ h.1, Stmt.ReadableSeq.respell f _ _ h.2⟩

/-- A renamed statement is readable. -/
theorem Stmt.Readable.respell (f : Spelling) : ∀ {s : Stmt} (scope next : Nat), s.Readable →
    (s.respell f scope next).Readable
  | .expr _ e, scope, _, h => by
      rw [Stmt.Readable] at h
      rw [Stmt.respell, Stmt.Readable]
      exact h.respell (f scope)
  | .assign _ _ value, scope, _, h => by
      rw [Stmt.Readable] at h
      rw [Stmt.respell, Stmt.Readable]
      exact h.respell (f scope)
  | .decl _ _ value, scope, _, h => by
      rw [Stmt.Readable] at h
      rw [Stmt.respell, Stmt.Readable]
      intro e he
      rcases Option.map_eq_some_iff.mp he with ⟨e₀, he₀, rfl⟩
      exact (h e₀ he₀).respell (f scope)
  | .func _ _ _ _ body, _, next, h => by
      rw [Stmt.Readable] at h
      rw [Stmt.respell, Stmt.Readable]
      exact Block.Readable.respell f _ h
  | .cond _ test body, scope, next, h => by
      rw [Stmt.Readable] at h
      rw [Stmt.respell, Stmt.Readable]
      exact ⟨h.1.respell (f scope), Block.Readable.respell f _ h.2⟩
  | .switch _ subject cases, scope, next, h => by
      rw [Stmt.Readable] at h
      rw [Stmt.respell, Stmt.Readable]
      exact ⟨h.1.respell (f scope), Case.ReadableSeq.respell f _ h.2⟩
  | .loop _ ⟨_, pre⟩ test post body, scope, next, h => by
      rw [Stmt.Readable] at h
      rw [Stmt.respell, Stmt.Readable]
      exact ⟨Stmt.ReadableSeq.respell f _ _ h.1, h.2.1.respell (f next),
        Block.Readable.respell f _ h.2.2.1, Block.Readable.respell f _ h.2.2.2⟩
  | .brk _, _, _, h => by rwa [Stmt.respell]
  | .cont _, _, _, h => by rwa [Stmt.respell]
  | .block b, _, next, h => by
      rw [Stmt.Readable] at h
      rw [Stmt.respell, Stmt.Readable]
      exact Block.Readable.respell f _ h
  | .label _ _, _, _, h => by rw [Stmt.Readable] at h; exact False.elim h
  | .stackAssign _ _, _, _, h => by rw [Stmt.Readable] at h; exact False.elim h

theorem Case.ReadableSeq.respell (f : Spelling) : ∀ {cases : List Case} (next : Nat),
    Case.ReadableSeq cases → Case.ReadableSeq (Case.respellSeq f next cases)
  | [], _, _ => by rw [Case.respellSeq, Case.ReadableSeq]; trivial
  | ⟨_, none, body⟩ :: rest, next, h => by
      rw [Case.ReadableSeq] at h
      obtain rfl := h.2
      rw [Case.respellSeq, Case.respellSeq, Case.ReadableSeq]
      exact ⟨Block.Readable.respell f _ h.1, rfl⟩
  | ⟨_, some _, body⟩ :: rest, next, h => by
      rw [Case.ReadableSeq] at h
      rw [Case.respellSeq, Case.ReadableSeq]
      exact ⟨Block.Readable.respell f _ h.1, Case.ReadableSeq.respell f _ h.2⟩

end

section Leaving

variable (f : Spelling)

mutual

theorem Block.leaves_respell : ∀ (b : Block) (id : Nat), (b.respell f id).leaves = b.leaves
  | ⟨_, stmts⟩, id => by
      rw [Block.respell, Block.leaves, Block.leaves, Stmt.leavesSeq_respell]

/-- Renaming leaves as many loops. -/
theorem Stmt.leavesSeq_respell : ∀ (stmts : List Stmt) (scope next : Nat),
    Stmt.leavesSeq (Stmt.respellSeq f scope next stmts) = Stmt.leavesSeq stmts
  | [], _, _ => by rw [Stmt.respellSeq]
  | s :: rest, scope, next => by
      rw [Stmt.respellSeq, Stmt.leavesSeq, Stmt.leavesSeq, Stmt.leaves_respell,
        Stmt.leavesSeq_respell]

theorem Stmt.leaves_respell : ∀ (s : Stmt) (scope next : Nat),
    (s.respell f scope next).leaves = s.leaves
  | .func _ _ _ _ body, _, _ => by
      rw [Stmt.respell, Stmt.leaves, Stmt.leaves, Block.leaves_respell]
  | .cond _ _ body, _, _ => by
      rw [Stmt.respell, Stmt.leaves, Stmt.leaves, Block.leaves_respell]
  | .switch _ _ cases, _, _ => by
      rw [Stmt.respell, Stmt.leaves, Stmt.leaves, Case.leavesSeq_respell]
  | .loop _ ⟨_, pre⟩ _ post body, _, _ => by
      rw [Stmt.respell, Stmt.leaves, Stmt.leaves, Stmt.leavesSeq_respell, Block.leaves_respell]
  | .block b, _, _ => by
      rw [Stmt.respell, Stmt.leaves, Stmt.leaves, Block.leaves_respell]
  | .expr _ _, _, _ => by simp only [Stmt.respell, Stmt.leaves]
  | .assign _ _ _, _, _ => by simp only [Stmt.respell, Stmt.leaves]
  | .decl _ _ _, _, _ => by simp only [Stmt.respell, Stmt.leaves]
  | .brk _, _, _ => by rw [Stmt.respell]
  | .cont _, _, _ => by rw [Stmt.respell]
  | .label _ _, _, _ => by simp only [Stmt.respell, Stmt.leaves]
  | .stackAssign _ _, _, _ => by simp only [Stmt.respell, Stmt.leaves]

theorem Case.leavesSeq_respell : ∀ (cases : List Case) (next : Nat),
    Case.leavesSeq (Case.respellSeq f next cases) = Case.leavesSeq cases
  | [], _ => by rw [Case.respellSeq]
  | ⟨_, _, body⟩ :: rest, next => by
      rw [Case.respellSeq, Case.leavesSeq, Case.leavesSeq, Block.leaves_respell,
        Case.leavesSeq_respell]

end

/-- Renaming does not decide whether an init part stays. -/
theorem Stmt.initStays_respell (s : Stmt) (scope next : Nat) :
    (s.respell f scope next).initStays = s.initStays := by
  cases s with
  | loop line pre test post body =>
      rcases pre with ⟨preLine, pre⟩
      rw [Stmt.respell, Stmt.initStays, Stmt.initStays, Block.leaves, Block.leaves,
        Stmt.leavesSeq_respell]
  | _ => simp only [Stmt.respell, Stmt.initStays]

mutual

/-- Loops are left from the same places in other names. -/
theorem Block.initsStay_respell : ∀ (b : Block) (id : Nat),
    (b.respell f id).initsStay = b.initsStay
  | ⟨_, stmts⟩, id => by
      rw [Block.respell, Block.initsStay, Block.initsStay, Block.allStmts, Block.allStmts,
        Stmt.initsStaySeq_respell]

theorem Stmt.initsStaySeq_respell : ∀ (stmts : List Stmt) (scope next : Nat),
    (Stmt.allStmtsSeq (Stmt.respellSeq f scope next stmts)).all Stmt.initStays
      = (Stmt.allStmtsSeq stmts).all Stmt.initStays
  | [], _, _ => by rw [Stmt.respellSeq]
  | s :: rest, scope, next => by
      rw [Stmt.respellSeq, Stmt.allStmtsSeq, Stmt.allStmtsSeq, List.all_cons, List.all_cons,
        List.all_append, List.all_append, Stmt.initStays_respell, Stmt.initsStayInner_respell,
        Stmt.initsStaySeq_respell]

theorem Stmt.initsStayInner_respell : ∀ (s : Stmt) (scope next : Nat),
    (s.respell f scope next).allInner.all Stmt.initStays = s.allInner.all Stmt.initStays
  | .func _ _ _ _ body, _, _ => by
      rw [Stmt.respell, Stmt.allInner, Stmt.allInner]
      exact Block.initsStay_respell body _
  | .cond _ _ body, _, _ => by
      rw [Stmt.respell, Stmt.allInner, Stmt.allInner]
      exact Block.initsStay_respell body _
  | .switch _ _ cases, _, _ => by
      rw [Stmt.respell, Stmt.allInner, Stmt.allInner]
      exact Case.initsStaySeq_respell cases _
  | .loop _ ⟨_, pre⟩ _ post body, _, _ => by
      have hpre := Stmt.initsStaySeq_respell pre
      have hpost := Block.initsStay_respell post
      have hbody := Block.initsStay_respell body
      simp only [Block.initsStay] at hpost hbody
      simp only [Stmt.respell, Stmt.allInner, Block.allStmts, List.all_append, hpre, hpost, hbody]
  | .block b, _, _ => by
      rw [Stmt.respell, Stmt.allInner, Stmt.allInner]
      exact Block.initsStay_respell b _
  | .expr _ _, _, _ => by simp only [Stmt.respell, Stmt.allInner]
  | .assign _ _ _, _, _ => by simp only [Stmt.respell, Stmt.allInner]
  | .decl _ _ _, _, _ => by simp only [Stmt.respell, Stmt.allInner]
  | .brk _, _, _ => by rw [Stmt.respell]
  | .cont _, _, _ => by rw [Stmt.respell]
  | .label _ _, _, _ => by simp only [Stmt.respell, Stmt.allInner]
  | .stackAssign _ _, _, _ => by simp only [Stmt.respell, Stmt.allInner]

theorem Case.initsStaySeq_respell : ∀ (cases : List Case) (next : Nat),
    (Case.allStmtsSeq (Case.respellSeq f next cases)).all Stmt.initStays
      = (Case.allStmtsSeq cases).all Stmt.initStays
  | [], _ => by rw [Case.respellSeq]
  | ⟨_, _, body⟩ :: rest, next => by
      have hbody := Block.initsStay_respell body next
      simp only [Block.initsStay] at hbody
      rw [Case.respellSeq, Case.allStmtsSeq, Case.allStmtsSeq, List.all_append, List.all_append,
        Case.initsStaySeq_respell, hbody]

end

end Leaving

end YulToolchain
