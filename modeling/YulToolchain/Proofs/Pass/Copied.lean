import YulToolchain.Pass.Rematerialize
import YulToolchain.Proofs.Pass.Traversals

/-!
# Copied Values

What becomes of an expression whose reads are replaced by known values.

A value that takes the place of a read is walked in turn, so the reads in it could
be replaced again, and so on. They never are. Whether a value is worth copying gets
less likely the more often its variable is referred to. A variable whose value was
not worth copying is not replaced, and only replacing a variable takes references to
it away. So from then on nothing is copied for it, until something else is learned
about it, when every value that reads it is forgotten. The reads that are left in a
value were not worth replacing when the value was walked itself, and by that they
are not worth it when the value is copied.

An expression therefore grows once, by the depth of a value.

## Main definitions

* `Expr.walked`: The reads that a walk comes by.
* `Pass.Dormant`: Nothing is copied for a variable.
* `Pass.Later`: The numbers of references do not fall for dormant variables.
* `Expr.Rests`, `Known.Rests`: All reads in an expression, or in all known values, are dormant.

## Theorems

* `Pass.Later.dormant`: What is dormant is so later on.
* `Pass.later_countCopy`: Copying a value is later.
* `Flow.visitExpr_rests`: An expression that rests is left as it is.
* `Flow.visitExpr_copies`: What is walked grows by the depth of one value, and rests.
-/

namespace YulToolchain

mutual

/-- The reads that a walk over an expression comes by. The literals that some builtins
    take are not walked. -/
def Expr.walked (d : Dialect) : Expr → List String
  | .literal _ => []
  | .ident _ name => [name]
  | .instr _ _ args => Expr.walkedAll d args
  | .call _ name args => if Flow.takesLiterals d name then [] else Expr.walkedAll d args

/-- The reads that a walk over some expressions comes by. -/
def Expr.walkedAll (d : Dialect) : List Expr → List String
  | [] => []
  | e :: rest => e.walked d ++ Expr.walkedAll d rest

end

mutual

/-- The variables that a walk meets are among those read. -/
theorem Expr.walked_subset (d : Dialect) : ∀ e : Expr, e.walked d ⊆ e.reads
  | .literal _ => List.nil_subset _
  | .ident _ name => by
      rw [Expr.walked, Expr.reads]
      exact List.Subset.refl _
  | .instr _ _ args => by
      rw [Expr.walked, Expr.reads]
      exact Expr.walkedAll_subset d args
  | .call _ name args => by
      rw [Expr.walked, Expr.reads]
      split
      · exact List.nil_subset _
      · exact Expr.walkedAll_subset d args

/-- The variables that a walk meets in arguments are among those read. -/
theorem Expr.walkedAll_subset (d : Dialect) : ∀ es : List Expr,
    Expr.walkedAll d es ⊆ Expr.readsAll es
  | [] => List.nil_subset _
  | e :: rest => by
      rw [Expr.walkedAll, Expr.readsAll]
      exact List.append_subset.mpr
        ⟨List.Subset.trans (Expr.walked_subset d e) (List.subset_append_left _ _),
          List.Subset.trans (Expr.walkedAll_subset d rest) (List.subset_append_right _ _)⟩

end

namespace Pass

/-- The most that a copied value adds to the depth of an expression. -/
def maxGrowth : Nat := maxCopiedDepth - 1

/-- The number of references to a variable. -/
def referenceCount (references : Table String Nat) (x : String) : Nat :=
  (references.get? x).getD 0

/-- Nothing is copied for a variable: what is known of it is not worth it. -/
def Dormant (k : Known) (references : Table String Nat) (x : String) : Prop :=
  ∀ value, (x, value) ∈ k.entries →
    worthCopying (referenceCount references x) value = false

/-- The numbers of references do not fall for dormant variables. -/
def Later (k : Known) (references references' : Table String Nat) : Prop :=
  ∀ x, Dormant k references x → referenceCount references x ≤ referenceCount references' x

section Counts

variable {k k' : Known} {references references' references'' : Table String Nat} {x y : String}
  {value : Expr}

/-- With fewer references a value is rather worth copying. -/
theorem worthCopying_of_le {n m : Nat} (h : n ≤ m) (hm : worthCopying m value = true) :
    worthCopying n value = true := by
  simp only [worthCopying, Bool.and_eq_true, Bool.or_eq_true, decide_eq_true_eq,
    beq_iff_eq] at hm ⊢
  omega

theorem depth_of_worthCopying {n : Nat} (h : worthCopying n value = true) :
    value.depth ≤ maxGrowth := by
  simp only [worthCopying, Bool.and_eq_true, decide_eq_true_eq] at h
  exact Nat.le_sub_one_of_lt h.1

/-- A variable stays dormant when its references become more. -/
theorem Dormant.of_le (h : Dormant k references x)
    (hle : referenceCount references x ≤ referenceCount references' x) :
    Dormant k references' x := fun value hvalue => by
  rw [← Bool.not_eq_true]
  exact fun hworth => absurd (worthCopying_of_le hle hworth) (by rw [h value hvalue]; decide)

theorem Dormant.sub (h : Dormant k references x) (hsub : k'.Sub k) : Dormant k' references x :=
  fun value hvalue => h value (hsub x value hvalue)

/-- What is dormant is so later on. -/
theorem Later.dormant (h : Later k references references') (hx : Dormant k references x) :
    Dormant k references' x := hx.of_le (h x hx)

theorem Later.refl (k : Known) (references : Table String Nat) : Later k references references :=
  fun _ _ => Nat.le_refl _

theorem Later.trans (h : Later k references references') (h' : Later k references' references'') :
    Later k references references'' :=
  fun x hx => Nat.le_trans (h x hx) (h' x (h.dormant hx))

/-- Counting one more reference. -/
theorem referenceCount_update :
    referenceCount (references.update y 0 (· + 1)) x
      = referenceCount references x + if x = y then 1 else 0 := by
  rw [referenceCount, Table.update, Table.get?_insert]
  by_cases h : x = y
  · rw [if_pos h, if_pos h, h]
    rfl
  · rw [if_neg h, if_neg h]
    rfl

/-- Counting a list of references. -/
theorem referenceCount_foldl (reads : List String) : ∀ references : Table String Nat,
    referenceCount (reads.foldl (fun t read => t.update read 0 (· + 1)) references) x
      = referenceCount references x + reads.count x := by
  induction reads with
  | nil => exact fun _ => rfl
  | cons read rest ih =>
      intro references
      rw [List.foldl_cons, ih, referenceCount_update, List.count_cons]
      simp only [beq_iff_eq, eq_comm (a := x)]
      omega

/-- A copy takes a reference away from the variable and adds those in the value. -/
theorem referenceCount_countCopy :
    referenceCount (countCopy y value references) x
      = (if x = y then referenceCount references x - 1 else referenceCount references x)
        + value.references.count x := by
  rw [countCopy, referenceCount_foldl]
  -- The references of the value come on top, so that only the variable itself is left to look at.
  refine congrArg (· + value.references.count x) ?_
  split
  · rename_i n hy
    rw [referenceCount, Table.get?_insert]
    split
    · rename_i hxy
      rw [referenceCount, hxy, hy]
      rfl
    · rfl
  · rename_i hy
    split
    · rename_i hxy
      rw [referenceCount, hxy, hy]
      rfl
    · rfl

/-- Copying a value takes a reference away from its own variable only, which is not
    dormant. -/
theorem later_countCopy (hvalue : (y, value) ∈ k.entries)
    (hworth : worthCopying (referenceCount references y) value = true) :
    Later k references (countCopy y value references) := fun x hx => by
  have hxy : x ≠ y := by
    rintro rfl
    exact absurd hworth (by rw [hx value hvalue]; decide)
  rw [referenceCount_countCopy, if_neg hxy]
  exact Nat.le_add_right _ _

end Counts

end Pass

open Pass

/-- Nothing is copied into an expression. -/
def Expr.Rests (d : Dialect) (k : Known) (references : Table String Nat) (e : Expr) : Prop :=
  ∀ x ∈ e.walked d, Dormant k references x

/-- Nothing is copied into some expressions. -/
def Expr.RestAll (d : Dialect) (k : Known) (references : Table String Nat) (es : List Expr) :
    Prop :=
  ∀ x ∈ Expr.walkedAll d es, Dormant k references x

/-- Nothing is copied into any known value, and no variable has two of them. -/
structure Known.Rests (d : Dialect) (k : Known) (references : Table String Nat) : Prop where
  single : ∀ x value value', (x, value) ∈ k.entries → (x, value') ∈ k.entries → value = value'
  rests : ∀ x value, (x, value) ∈ k.entries → value.Rests d k references

section Rest

variable {d : Dialect} {k : Known} {references references' : Table String Nat}

/-- Arguments rest if each of them does. -/
theorem Expr.restAll_cons {e : Expr} {rest : List Expr} :
    Expr.RestAll d k references (e :: rest) ↔
      e.Rests d k references ∧ Expr.RestAll d k references rest := by
  rw [Expr.RestAll, Expr.walkedAll, List.forall_mem_append]
  rfl

theorem Expr.Rests.later {e : Expr} (h : e.Rests d k references)
    (hlater : Later k references references') : e.Rests d k references' :=
  fun x hx => hlater.dormant (h x hx)

theorem Expr.RestAll.later {es : List Expr} (h : Expr.RestAll d k references es)
    (hlater : Later k references references') : Expr.RestAll d k references' es :=
  fun x hx => hlater.dormant (h x hx)

theorem Known.Rests.later (h : k.Rests d references) (hlater : Later k references references') :
    k.Rests d references' :=
  ⟨h.single, fun x value hvalue => (h.rests x value hvalue).later hlater⟩

end Rest

namespace Flow

variable {d : Dialect} {k : Known}

/-- Nothing takes the place of an expression that rests. -/
theorem rematerializeExpr_rests {references : Table String Nat} {e : Expr}
    (h : e.Rests d k references) : rematerializeExpr k e references = (e, references) := by
  unfold rematerializeExpr
  split
  · rename_i line name
    split
    · rename_i value hvalue
      have hdormant := h name (by rw [Expr.walked]; exact List.mem_cons_self) value
        (Known.mem_of_value? hvalue)
      rw [if_neg (by rw [← referenceCount, hdormant]; decide)]
    · rfl
  · rfl

/-- What takes the place of an expression is a known value, which rests from then on,
    or the expression itself. -/
theorem rematerializeExpr_cases {references : Table String Nat} (hk : k.Rests d references)
    (e : Expr) : ∃ e' references', rematerializeExpr k e references = (e', references') ∧
      Later k references references' ∧
      (e'.depth ≤ maxGrowth ∧ e'.Rests d k references' ∨
        e' = e ∧ ∀ line name, e = .ident line name → Dormant k references' name) := by
  unfold rematerializeExpr
  split
  · rename_i line name
    split
    · rename_i value hvalue
      have hmem := Known.mem_of_value? hvalue
      split
      -- The value is worth a copy: it is shallow and rests, as everything known does.
      · rename_i hworth
        have hlater := later_countCopy hmem hworth
        exact ⟨value, _, rfl, hlater,
          .inl ⟨depth_of_worthCopying hworth, (hk.rests name value hmem).later hlater⟩⟩
      -- The value is not worth a copy, and so the variable is dormant.
      · rename_i hworth
        refine ⟨_, references, rfl, .refl k references, .inr ⟨rfl, fun _ _ h value' hvalue' => ?_⟩⟩
        cases h
        rw [hk.single name value' value hvalue' hmem]
        exact Bool.not_eq_true _ ▸ hworth
    -- Nothing is known of the variable.
    · rename_i hvalue
      refine ⟨_, references, rfl, .refl k references, .inr ⟨rfl, fun _ _ h value' hvalue' => ?_⟩⟩
      cases h
      exact absurd (List.lookup_eq_none_iff.mp hvalue _ hvalue')
        (by simp only [bne_self_eq_false, Bool.false_eq_true, not_false_eq_true])
  · rename_i hident
    exact ⟨e, references, rfl, .refl k references,
      .inr ⟨rfl, fun line name h => absurd h (hident line name)⟩⟩

theorem act_copy (e : Expr) (scopes : List (List String)) (references : Table String Nat) :
    act (rematerializePolicy.enter · e) ⟨k, scopes, references⟩
      = ((rematerializeExpr k e references).1,
        ⟨k, scopes, (rematerializeExpr k e references).2⟩) := rfl

-- The bound does not matter here, since what is not walked is not changed either.
mutual

/-- An expression that rests is left as it is. -/
theorem visitExpr_rests : ∀ (fuel : Nat) (e : Expr) (scopes : List (List String))
    (references : Table String Nat), e.Rests d k references →
      visitExpr d rematerializePolicy fuel e ⟨k, scopes, references⟩
        = (e, ⟨k, scopes, references⟩)
  | 0, _, _, _, _ => rfl
  | fuel + 1, e, scopes, references, h => by
      rw [visitExpr, walk_bind (act_copy e scopes references), rematerializeExpr_rests h]
      cases e with
      | literal l => rfl
      | ident line name => rfl
      | instr line op args =>
          dsimp only
          rw [walk_bind (walk_map (visitArgs_rests fuel args scopes references
            (by rwa [Expr.Rests, Expr.walked] at h)))]
          rfl
      | call line name args =>
          rw [Expr.Rests, Expr.walked] at h
          dsimp only
          split at h
          · rename_i hliteral
            rw [if_pos hliteral]
            rfl
          · rename_i hliteral
            rw [if_neg hliteral,
              walk_bind (walk_map (visitArgs_rests fuel args scopes references h))]
            rfl

/-- Resting arguments are left as they are. -/
theorem visitArgs_rests : ∀ (fuel : Nat) (es : List Expr) (scopes : List (List String))
    (references : Table String Nat), Expr.RestAll d k references es →
      visitArgs d rematerializePolicy fuel es ⟨k, scopes, references⟩
        = (es, ⟨k, scopes, references⟩)
  | 0, _, _, _, _ => by
      rw [visitArgs]
      rfl
  | fuel + 1, [], _, _, _ => by
      rw [visitArgs]
      · rfl
      · rintro ⟨⟩
  | fuel + 1, e :: rest, scopes, references, h => by
      rw [Expr.restAll_cons] at h
      rw [visitArgs, walk_bind (visitArgs_rests fuel rest scopes references h.2),
        walk_bind (visitExpr_rests fuel e scopes references h.1)]
      rfl

end

/-- Visiting an expression that the hook changes is visiting the changed one. -/
theorem visitExpr_entered {fuel : Nat} {e e' : Expr} {st st' : FlowState (Table String Nat)}
    (h : act (rematerializePolicy.enter · e) st = (e', st'))
    (h' : act (rematerializePolicy.enter · e') st' = (e', st')) :
    visitExpr d rematerializePolicy (fuel + 1) e st
      = visitExpr d rematerializePolicy (fuel + 1) e' st' := by
  rw [visitExpr, visitExpr, walk_bind h, walk_bind h']

mutual

/-- What is walked grows by the depth of one copied value, and rests from then on. -/
theorem visitExpr_copies : ∀ (fuel : Nat) (e : Expr) (scopes : List (List String))
    (references : Table String Nat), k.Rests d references → 2 * e.size ≤ fuel + 1 →
      ∃ e' references', visitExpr d rematerializePolicy fuel e ⟨k, scopes, references⟩
          = (e', ⟨k, scopes, references'⟩) ∧
        Later k references references' ∧ e'.depth ≤ e.depth + maxGrowth ∧ e'.Rests d k references'
  | 0, e, _, _, _, hfuel => by
      have := e.size_pos
      omega
  | fuel + 1, e, scopes, references, hk, hfuel => by
      rcases rematerializeExpr_cases hk e with
        ⟨e', references', hcopy, hlater, ⟨hdepth, hrests⟩ | ⟨rfl, hdormant⟩⟩
      · -- The value that is copied rests already, so walking it changes nothing.
        refine ⟨e', references', ?_, hlater, Nat.le_trans hdepth (Nat.le_add_left _ _), hrests⟩
        rw [visitExpr_entered (by rw [act_copy, hcopy])
          (by rw [act_copy, rematerializeExpr_rests hrests])]
        exact visitExpr_rests (fuel + 1) e' scopes references' hrests
      -- Nothing was copied here, so the walk goes on into the arguments.
      · have hk' := hk.later hlater
        rw [visitExpr, walk_bind (act_copy e' scopes references), hcopy]
        cases e' with
        | literal l =>
            exact ⟨_, _, rfl, hlater, Nat.le_add_right _ _, fun x hx => absurd hx List.not_mem_nil⟩
        | ident line name =>
            refine ⟨_, _, rfl, hlater, Nat.le_add_right _ _, fun x hx => ?_⟩
            obtain rfl := List.mem_singleton.mp hx
            exact hdormant line x rfl
        | instr line op args =>
            rw [Expr.size] at hfuel
            rcases visitArgs_copies fuel args scopes references' hk' (by omega) with
              ⟨args', references'', hargs, hlater', hdepth, hrests⟩
            dsimp only
            rw [walk_bind (walk_map hargs)]
            refine ⟨.instr line op args', references'', rfl, hlater.trans hlater', ?_, hrests⟩
            rw [Expr.depth, Expr.depth]
            omega
        | call line name args =>
            rw [Expr.size] at hfuel
            dsimp only
            -- Literal arguments are not walked.
            by_cases hliteral : takesLiterals d name = true
            · rw [if_pos hliteral]
              refine ⟨.call line name args, references', rfl, hlater, Nat.le_add_right _ _,
                fun x hx => ?_⟩
              rw [Expr.walked, if_pos hliteral] at hx
              exact absurd hx List.not_mem_nil
            · rw [if_neg hliteral]
              rcases visitArgs_copies fuel args scopes references' hk' (by omega) with
                ⟨args', references'', hargs, hlater', hdepth, hrests⟩
              rw [walk_bind (walk_map hargs)]
              refine ⟨.call line name args', references'', rfl, hlater.trans hlater', ?_,
                fun x hx => ?_⟩
              · rw [Expr.depth, Expr.depth]
                omega
              · rw [Expr.walked, if_neg hliteral] at hx
                exact hrests x hx

/-- Visiting arguments copies only shallow values, and what comes out rests. -/
theorem visitArgs_copies : ∀ (fuel : Nat) (es : List Expr) (scopes : List (List String))
    (references : Table String Nat), k.Rests d references → 2 * Expr.sizeAll es ≤ fuel →
      ∃ es' references', visitArgs d rematerializePolicy fuel es ⟨k, scopes, references⟩
          = (es', ⟨k, scopes, references'⟩) ∧
        Later k references references' ∧ Expr.depthAll es' ≤ Expr.depthAll es + maxGrowth ∧
          Expr.RestAll d k references' es'
  | fuel, [], scopes, references, _, _ => by
      refine ⟨[], references, ?_, .refl k references, Nat.zero_le _,
        fun x hx => absurd hx List.not_mem_nil⟩
      cases fuel with
      | zero => rw [visitArgs]; rfl
      | succ fuel =>
          rw [visitArgs]
          · rfl
          · rintro ⟨⟩
  | 0, e :: rest, _, _, _, hfuel => by
      have := e.size_pos
      rw [Expr.sizeAll] at hfuel
      omega
  | fuel + 1, e :: rest, scopes, references, hk, hfuel => by
      have := e.size_pos
      rw [Expr.sizeAll] at hfuel
      -- The last arguments first; what has come to rest in them stays at rest.
      rcases visitArgs_copies fuel rest scopes references hk (by omega) with
        ⟨rest', references', hrest, hlater, hdepth, hrests⟩
      rcases visitExpr_copies fuel e scopes references' (hk.later hlater) (by omega) with
        ⟨e', references'', he, hlater', hdepth', hrests'⟩
      refine ⟨e' :: rest', references'', ?_, hlater.trans hlater', ?_,
        Expr.restAll_cons.mpr ⟨hrests', hrests.later hlater'⟩⟩
      · rw [visitArgs, walk_bind hrest, walk_bind he]
        rfl
      · rw [Expr.depthAll, Expr.depthAll]
        omega

end

/-- Walking the expression of a statement. -/
theorem visitRoot_copies {references : Table String Nat} (hk : k.Rests d references) (e : Expr)
    (scopes : List (List String)) : ∃ e' references',
      visitRoot d rematerializePolicy e ⟨k, scopes, references⟩
          = (e', ⟨k.evaluated d e', scopes, references'⟩) ∧
        Later k references references' ∧ e'.depth ≤ e.depth + maxGrowth ∧
          e'.Rests d k references' := by
  rcases visitExpr_copies (2 * (e.size + k.size) + 1) e scopes references hk (by omega) with
    ⟨e', references', hrun, h⟩
  refine ⟨e', references', ?_, h⟩
  rw [visitRoot]
  show (visitExpr d rematerializePolicy (2 * (e.size + k.size) + 1) e >>= fun e =>
    changeKnown (·.evaluated d e) >>= fun _ => pure e) ⟨k, scopes, references⟩ = _
  rw [walk_bind hrun]
  rfl

end Flow

end YulToolchain
