import YulToolchain.Proofs.Sequence.Accepted
import YulToolchain.Proofs.Syntax.Reread

/-!
# Optimized Code Is Source Again

What a sequence of steps leaves can be printed, read and accepted again.

Being proper says nearly all that is needed of a tree for this. The passes only use
instructions that the dialect offers, their new literals and names can be written, and
they build no statement that the reader would not. What it does not say is how deep the
tree is, and readers have a limit. The passes do not respect it, so the limit is a
condition here (`Block.nesting`).

There is one more exception. Moving the condition of a loop brings in an instruction
whatever the dialect is. Where code has no instructions, the printed form is read as a call
of a function that does not exist (`moved_condition_is_not_read_back`).

## Main definitions

* `Block.nesting`: How deep blocks and calls are nested.

## Theorems

* `Block.Stands.written`: Code that can stand at its place can be written down if it is
  not nested too deep.
* `Block.Proper.onLine`: Proper programs are proper on one line.
* `optimized_code_is_source`: What a sequence of steps leaves is read back and accepted.
* `moved_condition_is_not_read_back`: A loop condition that is not.
-/

namespace YulToolchain

mutual

/-- How deep blocks and calls are nested in a block. -/
def Block.nesting : Block → Nat
  | ⟨_, stmts⟩ => 1 + Stmt.nestingSeq stmts

/-- How deep blocks and calls are nested in some statements. -/
def Stmt.nestingSeq : List Stmt → Nat
  | [] => 0
  | s :: rest => max s.nesting (Stmt.nestingSeq rest)

/-- How deep blocks and calls are nested in a statement. -/
def Stmt.nesting : Stmt → Nat
  | .expr _ e => e.depth
  | .assign _ _ value => value.depth
  | .decl _ _ value => Expr.depthAll value.toList
  | .func _ _ _ _ body => body.nesting
  | .cond _ test body => max test.depth body.nesting
  | .switch _ subject cases => max subject.depth (Case.nestingSeq cases)
  | .loop _ pre test post body =>
    max (max pre.nesting test.depth) (max post.nesting body.nesting)
  | .block b => b.nesting
  | _ => 0

/-- How deep blocks and calls are nested in some cases. -/
def Case.nestingSeq : List Case → Nat
  | [] => 0
  | ⟨_, _, body⟩ :: rest => max body.nesting (Case.nestingSeq rest)

end

section Written

/-- Strings are written at any depth. -/
theorem Expr.writtenAll_quoted {d : Dialect} {depth : Nat} : ∀ {es : List Expr},
    (∀ e ∈ es, e.Quoted) → Expr.WrittenAll d depth es
  | [], _ => by
      rw [Expr.WrittenAll]
      trivial
  | e :: rest, h => by
      rcases h e List.mem_cons_self with ⟨l, rfl, _, hl⟩
      rw [Expr.WrittenAll, Expr.Written]
      exact ⟨hl, Expr.writtenAll_quoted fun e he => h e (List.mem_cons_of_mem _ he)⟩

mutual

/-- An expression that counts can be written within the limit of nesting. -/
theorem Expr.Counts.written {d : Dialect} {g : Ground} (hops : ∀ op, g.ops op → d.Offers op) :
    ∀ {e : Expr} {n depth : Nat}, e.Counts d g n → depth + e.depth ≤ maxNesting →
      e.Written d depth
  | .literal l, n, depth, h, _ => by
      rw [Expr.Counts] at h
      rw [Expr.Written]
      exact h.1
  | .ident _ x, n, depth, h, _ => by
      rw [Expr.Counts] at h
      rw [Expr.Written]
      exact h.1
  | .instr _ op args, n, depth, h, hdepth => by
      rw [Expr.Counts] at h
      rw [Expr.depth] at hdepth
      rw [Expr.Written]
      have hoffers := hops op h.1
      -- The setting allows only instructions that the dialect offers.
      exact ⟨hoffers.1, hoffers.2, by omega, Expr.CountOnes.written hops h.2.2.2 (by omega)⟩
  | .call _ name args, n, depth, h, hdepth => by
      rw [Expr.Counts] at h
      rw [Expr.depth] at hdepth
      rw [Expr.Written]
      refine ⟨h.1.1, h.1.2, by omega, ?_⟩
      cases hb : d.builtin? name with
      | none =>
          simp only [hb] at h
          exact Expr.CountOnes.written hops h.2.2 (by omega)
      | some b =>
          simp only [hb] at h
          rcases h with ⟨_, _, _, hargs⟩
          split at hargs
          · exact Expr.writtenAll_quoted hargs
          · exact Expr.CountOnes.written hops hargs (by omega)
termination_by structural e => e

/-- Arguments that count can be written within the limit of nesting. -/
theorem Expr.CountOnes.written {d : Dialect} {g : Ground} (hops : ∀ op, g.ops op → d.Offers op) :
    ∀ {es : List Expr} {depth : Nat}, Expr.CountOnes d g es →
      depth + Expr.depthAll es ≤ maxNesting → Expr.WrittenAll d depth es
  | [], _, _, _ => by
      rw [Expr.WrittenAll]
      trivial
  | e :: rest, depth, h, hdepth => by
      rw [Expr.CountOnes] at h
      rw [Expr.depthAll] at hdepth
      rw [Expr.WrittenAll]
      exact ⟨Expr.Counts.written hops h.1 (by omega), Expr.CountOnes.written hops h.2 (by omega)⟩
termination_by structural es => es

end

variable {S : Setting}

mutual

/-- Code that can stand at its place can be written down if it is not nested too deep. -/
theorem Block.Stands.written (hops : ∀ op, S.ops op → S.dialect.Offers op) :
    ∀ {b : Block} {o : Outlook} {inLoop : Bool} {depth : Nat}, b.Stands S o inLoop →
      depth + b.nesting ≤ maxNesting → b.Written S.dialect depth
  | ⟨_, stmts⟩, o, inLoop, depth, h, hdepth => by
      rw [Block.Stands] at h
      rw [Block.nesting] at hdepth
      rw [Block.Written]
      exact ⟨by omega, Stmt.StandSeq.written hops h (by omega)⟩
termination_by structural b => b

/-- A sequence that stands can be written within the limit of nesting. -/
theorem Stmt.StandSeq.written (hops : ∀ op, S.ops op → S.dialect.Offers op) :
    ∀ {stmts : List Stmt} {o : Outlook} {inLoop : Bool} {depth : Nat},
      Stmt.StandSeq S o inLoop stmts → depth + Stmt.nestingSeq stmts ≤ maxNesting →
        Stmt.WrittenSeq S.dialect depth stmts
  | [], _, _, _, _, _ => by
      rw [Stmt.WrittenSeq]
      trivial
  | s :: rest, o, inLoop, depth, h, hdepth => by
      rw [Stmt.StandSeq] at h
      rw [Stmt.nestingSeq] at hdepth
      rw [Stmt.WrittenSeq]
      exact ⟨Stmt.Stands.written hops h.1 (by omega), Stmt.StandSeq.written hops h.2 (by omega)⟩
termination_by structural stmts => stmts

/-- A statement that stands can be written within the limit of nesting. -/
theorem Stmt.Stands.written (hops : ∀ op, S.ops op → S.dialect.Offers op) :
    ∀ {s : Stmt} {o : Outlook} {inLoop : Bool} {depth : Nat}, s.Stands S o inLoop →
      depth + s.nesting ≤ maxNesting → s.Written S.dialect depth
  | .expr _ e, o, inLoop, depth, h, hdepth => by
      rw [Stmt.Stands] at h
      rw [Stmt.nesting] at hdepth
      rw [Stmt.Written]
      rcases h with ⟨n, h, _⟩
      exact Expr.Counts.written hops h hdepth
  | .assign _ targets value, o, inLoop, depth, h, hdepth => by
      rw [Stmt.Stands] at h
      rw [Stmt.nesting] at hdepth
      rw [Stmt.Written]
      exact ⟨h.1, fun t ht => (h.2.1 t ht).1, Expr.Counts.written hops h.2.2 hdepth⟩
  | .decl _ vars value, o, inLoop, depth, h, hdepth => by
      rw [Stmt.Stands] at h
      rw [Stmt.nesting] at hdepth
      rw [Stmt.Written]
      refine ⟨h.1, fun v hv => (h.2.1 v hv).1, ?_⟩
      rintro e rfl
      rw [Option.toList_some, Expr.depthAll] at hdepth
      exact Expr.Counts.written hops (h.2.2 e rfl) (by omega)
  | .func _ name params returns body, o, inLoop, depth, h, hdepth => by
      rw [Stmt.Stands] at h
      rw [Stmt.nesting] at hdepth
      rw [Stmt.Written]
      -- Parameters and return variables stand together and are written apart.
      have hnames := List.forall_mem_append.mp h.2.1
      exact ⟨h.1.1, fun v hv => (hnames.1 v hv).1, fun v hv => (hnames.2 v hv).1,
        Block.Stands.written hops h.2.2 hdepth⟩
  | .cond _ test body, o, inLoop, depth, h, hdepth => by
      rw [Stmt.Stands] at h
      rw [Stmt.nesting] at hdepth
      rw [Stmt.Written]
      exact ⟨Expr.Counts.written hops h.1 (by omega), Block.Stands.written hops h.2 (by omega)⟩
  | .switch _ subject cases, o, inLoop, depth, h, hdepth => by
      rw [Stmt.Stands] at h
      rw [Stmt.nesting] at hdepth
      rw [Stmt.Written]
      exact ⟨Expr.Counts.written hops h.1 (by omega), h.2.1,
        Case.StandSeq.written hops h.2.2 (by omega)⟩
  -- Its init block may nest as deep as the rest of the loop.
  | .loop _ ⟨line, pre⟩ test post body, o, inLoop, depth, h, hdepth => by
      rw [Stmt.Stands] at h
      rw [Stmt.nesting, Block.nesting] at hdepth
      rw [Stmt.Written, Block.Written]
      exact ⟨⟨by omega, Stmt.StandSeq.written hops h.1 (by omega)⟩,
        Expr.Counts.written hops h.2.1 (by omega), Block.Stands.written hops h.2.2.2 (by omega),
        Block.Stands.written hops h.2.2.1 (by omega)⟩
  | .brk _, _, _, _, _, _ => by
      rw [Stmt.Written]
      trivial
  | .cont _, _, _, _, _, _ => by
      rw [Stmt.Written]
      trivial
  | .block b, o, inLoop, depth, h, hdepth => by
      rw [Stmt.Stands] at h
      rw [Stmt.nesting] at hdepth
      rw [Stmt.Written]
      exact Block.Stands.written hops h hdepth
  | .label _ name, o, inLoop, depth, h, _ => by
      rw [Stmt.Stands] at h
      rw [Stmt.Written]
      exact ⟨h.1, h.2.1⟩
  | .stackAssign _ target, o, inLoop, depth, h, _ => by
      rw [Stmt.Stands] at h
      rw [Stmt.Written]
      exact ⟨h.1, h.2.1⟩
termination_by structural s => s

/-- Cases that stand can be written within the limit of nesting. -/
theorem Case.StandSeq.written (hops : ∀ op, S.ops op → S.dialect.Offers op) :
    ∀ {cases : List Case} {o : Outlook} {inLoop : Bool} {seen : List Word} {depth : Nat},
      Case.StandSeq S o inLoop seen cases → depth + Case.nestingSeq cases ≤ maxNesting →
        Case.WrittenSeq S.dialect depth cases
  | [], _, _, _, _, _, _ => by
      rw [Case.WrittenSeq]
      trivial
  | ⟨_, none, body⟩ :: rest, o, inLoop, seen, depth, h, hdepth => by
      rw [Case.StandSeq] at h
      rw [Case.nestingSeq] at hdepth
      rw [Case.WrittenSeq]
      exact ⟨Block.Stands.written hops h.1 (by omega), h.2⟩
  | ⟨_, some l, body⟩ :: rest, o, inLoop, seen, depth, h, hdepth => by
      rw [Case.StandSeq] at h
      rw [Case.nestingSeq] at hdepth
      rw [Case.WrittenSeq]
      rcases h with ⟨hl, w, _, _, hbody, hrest⟩
      exact ⟨hl, Block.Stands.written hops hbody (by omega),
        Case.StandSeq.written hops hrest (by omega)⟩
termination_by structural cases => cases

end

end Written

section Lines

variable {S : Setting} {n : Nat}

theorem TypedName.name_onLine (vars : List TypedName) :
    (vars.map (TypedName.onLine n)).map (·.name) = vars.map (·.name) := by
  rw [List.map_map]
  rfl

/-- What variables are declared as does not depend on lines. -/
theorem TypedName.symbols_onLine (vars : List TypedName) :
    TypedName.symbols (vars.map (TypedName.onLine n)) = TypedName.symbols vars := by
  rw [TypedName.symbols, List.map_map]
  rfl

theorem TypedName.types_onLine (vars : List TypedName) :
    (vars.map (TypedName.onLine n)).map (·.type) = vars.map (·.type) := by
  rw [List.map_map]
  rfl

/-- What is hoisted does not depend on lines. -/
theorem Stmt.hoists_onLine (s : Stmt) : (s.onLine n).hoists = s.hoists := by
  cases s with
  | func _ name params returns body =>
      rw [Stmt.onLine, Stmt.hoists, TypedName.types_onLine, TypedName.types_onLine, Stmt.hoists]
  | _ =>
      rw [Stmt.onLine]
      rfl

/-- What is added does not depend on lines. -/
theorem Stmt.adds_onLine (s : Stmt) : (s.onLine n).adds = s.adds := by
  cases s with
  | decl _ vars value => rw [Stmt.onLine, Stmt.adds, TypedName.symbols_onLine, Stmt.adds]
  | _ =>
      rw [Stmt.onLine]
      rfl

/-- What is declared does not depend on lines. -/
theorem Stmt.declaresHere_onLine (s : Stmt) : (s.onLine n).declaresHere = s.declaresHere := by
  cases s with
  | decl _ vars value =>
      rw [Stmt.onLine, Stmt.declaresHere, TypedName.name_onLine, Stmt.declaresHere]
  | func _ name params returns body =>
      rw [Stmt.onLine, Stmt.declaresHere, ← List.map_append, TypedName.name_onLine,
        Stmt.declaresHere]
  | _ =>
      rw [Stmt.onLine]
      rfl

/-- A sequence is put on a line statement by statement. -/
theorem Stmt.onLineSeq_eq (stmts : List Stmt) :
    Stmt.onLineSeq n stmts = stmts.map (Stmt.onLine n) := by
  induction stmts with
  | nil => rw [Stmt.onLineSeq, List.map_nil]
  | cons s rest ih => rw [Stmt.onLineSeq, ih, List.map_cons]

theorem Stmt.flatMap_hoists_onLine (stmts : List Stmt) :
    (Stmt.onLineSeq n stmts).flatMap Stmt.hoists = stmts.flatMap Stmt.hoists := by
  simp only [Stmt.onLineSeq_eq, List.flatMap_map, Stmt.hoists_onLine]

theorem Stmt.flatMap_adds_onLine (stmts : List Stmt) :
    (Stmt.onLineSeq n stmts).flatMap Stmt.adds = stmts.flatMap Stmt.adds := by
  simp only [Stmt.onLineSeq_eq, List.flatMap_map, Stmt.adds_onLine]

theorem Literal.written_onLine {l : Literal} : (l.onLine n).Written ↔ l.Written := Iff.rfl

theorem Expr.length_onLineAll (es : List Expr) : (Expr.onLineAll n es).length = es.length := by
  induction es with
  | nil => rw [Expr.onLineAll]
  | cons e rest ih => rw [Expr.onLineAll, List.length_cons, ih, List.length_cons]

theorem Expr.onLineAll_eq (es : List Expr) : Expr.onLineAll n es = es.map (Expr.onLine n) := by
  induction es with
  | nil => rw [Expr.onLineAll, List.map_nil]
  | cons e rest ih => rw [Expr.onLineAll, ih, List.map_cons]

theorem Expr.Quoted.onLine {e : Expr} (h : e.Quoted) : (e.onLine n).Quoted := by
  rcases h with ⟨l, rfl, hkind, hl⟩
  exact ⟨l.onLine n, by rw [Expr.onLine], hkind, Literal.written_onLine.mpr hl⟩

mutual

/-- The count of an expression does not depend on its line. -/
theorem Expr.Counts.onLine {d : Dialect} {g : Ground} : ∀ {e : Expr} {k : Nat},
    e.Counts d g k → (e.onLine n).Counts d g k
  | .literal l, k, h => by
      rw [Expr.Counts] at h
      rw [Expr.onLine, Expr.Counts]
      exact h
  | .ident _ x, k, h => by
      rw [Expr.Counts] at h
      rw [Expr.onLine, Expr.Counts]
      exact h
  | .instr _ op args, k, h => by
      rw [Expr.Counts] at h
      rw [Expr.onLine, Expr.Counts, Expr.length_onLineAll]
      exact ⟨h.1, h.2.1, h.2.2.1, Expr.CountOnes.onLine h.2.2.2⟩
  | .call _ name args, k, h => by
      rw [Expr.Counts] at h
      rw [Expr.onLine, Expr.Counts, Expr.length_onLineAll]
      refine ⟨h.1, ?_⟩
      cases hb : d.builtin? name with
      | none =>
          simp only [hb] at h ⊢
          exact ⟨h.2.1, Expr.CountOnes.onLine h.2.2⟩
      | some b =>
          simp only [hb] at h ⊢
          refine ⟨h.2.1, h.2.2.1, ?_⟩
          have hargs := h.2.2.2
          by_cases hlit : b.literalArguments = true
          · rw [if_pos hlit] at hargs ⊢
            rw [Expr.onLineAll_eq]
            exact List.forall_mem_map.mpr fun e he => (hargs e he).onLine
          · rw [if_neg hlit] at hargs ⊢
            exact Expr.CountOnes.onLine hargs
termination_by structural e => e

/-- The counts of arguments do not depend on their line. -/
theorem Expr.CountOnes.onLine {d : Dialect} {g : Ground} : ∀ {es : List Expr},
    Expr.CountOnes d g es → Expr.CountOnes d g (Expr.onLineAll n es)
  | [], h => by rwa [Expr.onLineAll]
  | e :: rest, h => by
      rw [Expr.CountOnes] at h
      rw [Expr.onLineAll, Expr.CountOnes]
      exact ⟨Expr.Counts.onLine h.1, Expr.CountOnes.onLine h.2⟩
termination_by structural es => es

end

/-- What does not depend on the line of a variable holds on any line. -/
theorem TypedName.forall_onLine {P : TypedName → Prop} {vars : List TypedName}
    (h : ∀ v ∈ vars, P v) (hP : ∀ v, P v → P (v.onLine n)) :
    ∀ v ∈ vars.map (TypedName.onLine n), P v :=
  List.forall_mem_map.mpr fun v hv => hP v (h v hv)

mutual

/-- Code that can stand at its place can do so on one line. -/
theorem Block.Stands.onLine : ∀ {b : Block} {o : Outlook} {inLoop : Bool},
    b.Stands S o inLoop → (b.onLine n).Stands S o inLoop
  | ⟨_, stmts⟩, o, inLoop, h => by
      rw [Block.Stands] at h
      rw [Block.onLine, Block.Stands, Stmt.flatMap_hoists_onLine]
      exact Stmt.StandSeq.onLine h
termination_by structural b => b

/-- A sequence stands on any line. -/
theorem Stmt.StandSeq.onLine : ∀ {stmts : List Stmt} {o : Outlook} {inLoop : Bool},
    Stmt.StandSeq S o inLoop stmts → Stmt.StandSeq S o inLoop (Stmt.onLineSeq n stmts)
  | [], o, inLoop, h => by rwa [Stmt.onLineSeq]
  | s :: rest, o, inLoop, h => by
      rw [Stmt.StandSeq] at h
      rw [Stmt.onLineSeq, Stmt.StandSeq, Stmt.adds_onLine]
      exact ⟨Stmt.Stands.onLine h.1, Stmt.StandSeq.onLine h.2⟩
termination_by structural stmts => stmts

/-- A statement stands on any line. -/
theorem Stmt.Stands.onLine : ∀ {s : Stmt} {o : Outlook} {inLoop : Bool},
    s.Stands S o inLoop → (s.onLine n).Stands S o inLoop
  | .expr _ e, o, inLoop, h => by
      rw [Stmt.Stands] at h
      rw [Stmt.onLine, Stmt.Stands]
      rcases h with ⟨k, h, hk⟩
      exact ⟨k, h.onLine, hk⟩
  | .assign _ targets value, o, inLoop, h => by
      rw [Stmt.Stands] at h
      rw [Stmt.onLine, Stmt.Stands, List.length_map]
      exact ⟨mt List.map_eq_nil_iff.mp h.1, List.forall_mem_map.mpr h.2.1, h.2.2.onLine⟩
  | .decl _ vars value, o, inLoop, h => by
      rw [Stmt.Stands] at h
      rw [Stmt.onLine, Stmt.Stands, List.length_map]
      refine ⟨mt List.map_eq_nil_iff.mp h.1, TypedName.forall_onLine h.2.1 fun v hv => hv, ?_⟩
      -- The value on the line is there for a value that was there.
      intro e he
      rcases Option.map_eq_some_iff.mp he with ⟨e', he', rfl⟩
      exact (h.2.2 e' he').onLine
  | .func _ name params returns body, o, inLoop, h => by
      rw [Stmt.Stands] at h
      rw [Stmt.onLine, Stmt.Stands, ← List.map_append, TypedName.symbols_onLine]
      exact ⟨h.1, TypedName.forall_onLine h.2.1 fun v hv => hv, Block.Stands.onLine h.2.2⟩
  | .cond _ test body, o, inLoop, h => by
      rw [Stmt.Stands] at h
      rw [Stmt.onLine, Stmt.Stands]
      exact ⟨h.1.onLine, Block.Stands.onLine h.2⟩
  | .switch _ subject cases, o, inLoop, h => by
      rw [Stmt.Stands] at h
      rw [Stmt.onLine, Stmt.Stands]
      exact ⟨h.1.onLine, Case.onLineSeq_ne_nil h.2.1, Case.StandSeq.onLine h.2.2⟩
  | .loop _ ⟨_, pre⟩ test post body, o, inLoop, h => by
      rw [Stmt.Stands] at h
      -- What the init block hoists and adds is the same on the line.
      rw [Stmt.onLine, Block.onLine, Stmt.Stands, Stmt.flatMap_hoists_onLine,
        Stmt.flatMap_adds_onLine]
      exact ⟨Stmt.StandSeq.onLine h.1, h.2.1.onLine, Block.Stands.onLine h.2.2.1,
        Block.Stands.onLine h.2.2.2⟩
  | .brk _, o, inLoop, h => by
      rw [Stmt.Stands] at h
      rw [Stmt.onLine, Stmt.Stands]
      exact h
  | .cont _, o, inLoop, h => by
      rw [Stmt.Stands] at h
      rw [Stmt.onLine, Stmt.Stands]
      exact h
  | .block b, o, inLoop, h => by
      rw [Stmt.Stands] at h
      rw [Stmt.onLine, Stmt.Stands]
      exact Block.Stands.onLine h
  | .label _ name, o, inLoop, h => by
      rw [Stmt.Stands] at h
      rw [Stmt.onLine, Stmt.Stands]
      exact h
  | .stackAssign _ target, o, inLoop, h => by
      rw [Stmt.Stands] at h
      rw [Stmt.onLine, Stmt.Stands]
      exact h
termination_by structural s => s

/-- The cases stand on any line. -/
theorem Case.StandSeq.onLine : ∀ {cases : List Case} {o : Outlook} {inLoop : Bool}
    {seen : List Word}, Case.StandSeq S o inLoop seen cases →
      Case.StandSeq S o inLoop seen (Case.onLineSeq n cases)
  | [], _, _, _, h => by rwa [Case.onLineSeq]
  | ⟨_, none, body⟩ :: rest, o, inLoop, seen, h => by
      rw [Case.StandSeq] at h
      obtain rfl := h.2
      rw [Case.onLineSeq, Case.onLineSeq, Option.map_none, Case.StandSeq]
      exact ⟨Block.Stands.onLine h.1, rfl⟩
  | ⟨_, some l, body⟩ :: rest, o, inLoop, seen, h => by
      rw [Case.StandSeq] at h
      rw [Case.onLineSeq, Option.map_some, Case.StandSeq]
      rcases h with ⟨hl, w, hw, hseen, hbody, hrest⟩
      exact ⟨hl, w, hw, hseen, Block.Stands.onLine hbody, Case.StandSeq.onLine hrest⟩
termination_by structural cases => cases

end

mutual

/-- The statements of a block are put on the line one by one. -/
theorem Block.allStmts_onLine : ∀ (b : Block),
    (b.onLine n).allStmts = b.allStmts.map (Stmt.onLine n)
  | ⟨_, stmts⟩ => by
      rw [Block.onLine, Block.allStmts, Stmt.allStmtsSeq_onLine stmts, Block.allStmts]
termination_by structural b => b

/-- The statements of a sequence are put on the line one by one. -/
theorem Stmt.allStmtsSeq_onLine : ∀ (stmts : List Stmt),
    Stmt.allStmtsSeq (Stmt.onLineSeq n stmts) = (Stmt.allStmtsSeq stmts).map (Stmt.onLine n)
  | [] => by rw [Stmt.onLineSeq, Stmt.allStmtsSeq, List.map_nil]
  | s :: rest => by
      rw [Stmt.onLineSeq, Stmt.allStmtsSeq, Stmt.allInner_onLine s, Stmt.allStmtsSeq_onLine rest,
        Stmt.allStmtsSeq, List.map_cons, List.map_append]
termination_by structural stmts => stmts

/-- The statements inside of a statement are put on the line one by one. -/
theorem Stmt.allInner_onLine : ∀ (s : Stmt),
    (s.onLine n).allInner = s.allInner.map (Stmt.onLine n)
  | .func _ _ _ _ body => by
      rw [Stmt.onLine, Stmt.allInner, Block.allStmts_onLine body, Stmt.allInner]
  | .cond _ _ body => by
      rw [Stmt.onLine, Stmt.allInner, Block.allStmts_onLine body, Stmt.allInner]
  | .switch _ _ cases => by
      rw [Stmt.onLine, Stmt.allInner, Case.allStmtsSeq_onLine cases, Stmt.allInner]
  | .loop _ pre _ post body => by
      rw [Stmt.onLine, Stmt.allInner, Block.allStmts_onLine pre, Block.allStmts_onLine body,
        Block.allStmts_onLine post, Stmt.allInner, List.map_append, List.map_append]
  | .block b => by
      rw [Stmt.onLine, Stmt.allInner, Block.allStmts_onLine b, Stmt.allInner]
  | .expr _ _ => rfl
  | .assign _ _ _ => rfl
  | .decl _ _ _ => rfl
  | .brk _ => rfl
  | .cont _ => rfl
  | .label _ _ => rfl
  | .stackAssign _ _ => rfl
termination_by structural s => s

/-- The statements of cases are put on the line one by one. -/
theorem Case.allStmtsSeq_onLine : ∀ (cases : List Case),
    Case.allStmtsSeq (Case.onLineSeq n cases) = (Case.allStmtsSeq cases).map (Stmt.onLine n)
  | [] => by rw [Case.onLineSeq, Case.allStmtsSeq, List.map_nil]
  | ⟨_, _, body⟩ :: rest => by
      rw [Case.onLineSeq, Case.allStmtsSeq, Block.allStmts_onLine body,
        Case.allStmtsSeq_onLine rest, Case.allStmtsSeq, List.map_append]
termination_by structural cases => cases

end

/-- Proper programs are proper on one line. -/
theorem Block.Proper.onLine {code : Block} (h : code.Proper S) : (code.onLine n).Proper S where
  stands := h.stands.onLine
  labels x hx := by
    rcases code with ⟨line, stmts⟩
    rw [Block.onLine]
    show _ ∈ (Stmt.onLineSeq n stmts).flatMap Stmt.hoists
    rw [Stmt.flatMap_hoists_onLine]
    exact h.labels x hx
  declared := by
    have heq : (code.onLine n).declared = code.declared := by
      simp only [Block.declared, Block.allStmts_onLine, List.flatMap_map, Stmt.declaresHere_onLine]
    rw [heq]
    exact h.declared

end Lines

/-- Machine dialects offer the instruction that checks a moved condition, unless their builtins
    only have their effect on the stack. -/
theorem MachineDialect.offers_iszero {m : MachineDialect} (h : m.dryRun = false) :
    (Dialect.machine m).Offers .iszero := by
  rcases m with ⟨flavour, objectAccess, dryRun⟩
  obtain rfl : dryRun = false := h
  have hop : Dialect.functionalInstruction? (.machine ⟨flavour, objectAccess, false⟩) "iszero"
      = some .iszero := by
    cases flavour <;> cases objectAccess <;> rfl
  have hparts : ['s', 'z', 'e', 'r', 'o'].all isIdentifierPart = true := by decide
  have hname : IsName "iszero" :=
    ⟨⟨'i', ['s', 'z', 'e', 'r', 'o'], rfl, by decide, List.all_eq_true.mp hparts⟩, by decide⟩
  have hmnemonic : Instruction.iszero.mnemonic = "iszero" := rfl
  refine ⟨hmnemonic ▸ hname, fun line args => ?_⟩
  rw [hmnemonic, Parse.resolveCall, hop]

/-- What a sequence of steps leaves of an accepted program is read back from its printed form
    and accepted again, if it is nested no deeper than readers allow, and if conditions of loops
    are only moved where the dialect has the instruction for it. -/
theorem optimized_code_is_source {d : Dialect} (hd : d.flavour ≠ .loose) {source : String}
    {code : Block} {ss : Scopes} (hread : Reads d source code) (haccept : analyze d code = .ok ss)
    (steps : List Step)
    (hguard : .moveLoopCondition ∈ steps → ∃ m, d = .machine m ∧ m.dryRun = false) :
    ∃ result, optimizeCode d [] steps code = .ok result ∧
      (result.nesting ≤ maxNesting → parseBlock d result.print = .ok (result.onLine 1) ∧
        ∃ ss', analyze d (result.onLine 1) = .ok ss') := by
  rcases makeNamesUnique_written hread.written haccept with
    ⟨unique, ss₁, hunique, haccept₁, hwritten, hdeclared⟩
  -- Unique code that was accepted is proper, as long as there are no labels.
  have hstart : unique.Proper ⟨d, d.Offers, unique.stmts.flatMap Stmt.labelsHere⟩ :=
    Block.proper_of_accepted (fun _ h => h) hwritten haccept₁ hdeclared fun h => absurd h hd
  -- The moved condition is an instruction that the dialect has to offer.
  have hoffers : .moveLoopCondition ∈ steps → d.Offers .iszero := by
    intro hmove
    rcases hguard hmove with ⟨m, rfl, hm⟩
    exact MachineDialect.offers_iszero hm
  have hproper : (Step.runAll d steps unique).Proper
      ⟨d, d.Offers, unique.stmts.flatMap Stmt.labelsHere⟩ := Step.runAll_proper hoffers hstart
  rcases hproper.accepted with ⟨ss₂, hresult⟩
  refine ⟨_, optimizeCode_eq haccept hunique hresult, fun hnesting => ⟨?_, ?_⟩⟩
  -- The parser reads back what nests within its limit.
  · have hdepth : 0 + (Step.runAll d steps unique).nesting ≤ maxNesting := by
      rw [Nat.zero_add]
      exact hnesting
    exact parseBlock_print (hproper.stands.written (fun _ h => h) hdepth)
  · exact hproper.onLine.accepted

/-- A program whose names, declarations and loop are all changed on the way. -/
theorem optimized_code_is_source_with_loop :
    ∃ code ss, parseBlock .strictAssembly
        "{ { let x let y := 7 }
          for { let x := 1 } lt(x, 9) { x := add(x, 1) } { let z := add(x, 0) sstore(z, z) } }"
          = .ok code ∧
      analyze .strictAssembly code = .ok ss ∧
      ∃ result, optimizeCode .strictAssembly [] Step.all code = .ok result ∧
        parseBlock .strictAssembly result.print = .ok (result.onLine 1) ∧
        ∃ ss', analyze .strictAssembly (result.onLine 1) = .ok ss' := by
  refine exists_of_accepted? (fun code => match optimizeCode .strictAssembly [] Step.all code with
    | .ok result => decide (result.nesting ≤ maxNesting)
    | .error _ => false) (by decide +kernel) fun code ss hread haccept htest => ?_
  rcases optimized_code_is_source (by decide) (.inl hread) haccept Step.all
    (fun _ => ⟨_, rfl, rfl⟩) with ⟨result, hresult, h⟩
  simp only [hresult, decide_eq_true_eq] at htest
  exact ⟨result, hresult, h htest⟩

/-- The moved condition is checked by an instruction, but its printed form is read as a call. No
    function has that name. -/
theorem moved_condition_is_not_read_back :
    ∃ code ss, parseBlock .typed "{ let x for {} x {} {} }" = .ok code ∧
      analyze .typed code = .ok ss ∧
      ∃ result reread, optimizeCode .typed [] [.moveLoopCondition] code = .ok result ∧
        parseBlock .typed result.print = .ok reread ∧
        analyze .typed reread = .error ⟨1, .unknownFunction "iszero"⟩ := by
  refine exists_of_accepted? (fun code =>
    (optimizeCode .typed [] [.moveLoopCondition] code).toOption.any fun result =>
      (parseBlock .typed result.print).toOption.any fun reread =>
        decide ((analyze .typed reread).map (fun _ => ())
          = .error ⟨1, .unknownFunction "iszero"⟩)) (by decide +kernel) fun code ss _ _ htest => ?_
  rcases exists_ok_of_any htest with ⟨result, hresult, htest⟩
  rcases exists_ok_of_any htest with ⟨reread, hreread, htest⟩
  exact ⟨result, reread, hresult, hreread, eq_error_of_map (of_decide_eq_true htest)⟩

end YulToolchain
