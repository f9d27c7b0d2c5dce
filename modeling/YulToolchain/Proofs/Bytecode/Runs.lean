import YulToolchain.Proofs.Bytecode.Simulation
import YulToolchain.Proofs.Execution.Lexical
import YulToolchain.Proofs.Execution.Soundness

/-!
# Statements on the Stack Machine

The machine does what statements do.

A statement is followed from a frame that holds the values of the variables in sight to a frame
that holds those in sight behind it, or to the label where the loop around it goes on. Under the
frame lies whatever was there before, which is why a call finds the frame of its caller as it
left it. The rounds of a loop are followed one by one, from the label where a round starts to
the same label or to the exit. Calls are followed by induction on their depth.

Nothing is said of a run of the interpreter that uses up its budget.

## Main definitions

* `Caller.Hosted`: The code is there, and the machine does what calls do.
* `Site.Framed`: A row of words is the frame of a place.
* `Site.Rests`: Control is at a position with the frame of a place on the stack.
* `Block.Mirrored`, `Stmt.Mirrored`: The machine does what a block or a statement does.

## Theorems

* `Mirrors.rounds`, `Site.rounds_mirrored`: The rounds of a loop.
* `Stmt.Mirrored.assign`, `Stmt.Mirrored.loop` and so on: One for each kind of statement, from
  what is known of its parts.
* `Block.run_mirrored`, `Stmt.run_mirrored`: All blocks and statements.
* `FunctionDef.call_mirrored`: Calls.
* `Block.Coded.mirrored`: Programs.
-/

namespace YulToolchain

open Bytecode

/-- The code is there, and the machine does what calls do. -/
structure Caller.Hosted (ctx : RunContext) (items : List Item) (code : List UInt8)
    (call : Caller) : Prop where
  loaded : Loaded items code
  sound : call.Sound ctx.dialect
  lexical : call.Lexical ctx.dialect
  mirrored : call.Mirrored ctx.limits ctx.dialect items code

/-- A row of words is the frame of a place where the variables in sight have values. -/
structure Site.Framed (d : Dialect) (items : List Item) (k : Site) (v : Sight) (env : Environment)
    (row : List Word) : Prop where
  suits : k.Suits d items v
  holds : Environment.Holds v.vars env
  length : row.length = k.height
  agrees : k.Agrees v env row

/-- Control is at a position with the frame of a place on the stack. -/
def Site.Rests (d : Dialect) (items : List Item) (k : Site) (v : Sight) (below : List Word)
    (position : Nat) (s : RunState) (c : Config) : Prop :=
  ∃ row, k.Framed d items v s.env row ∧ c = ⟨position, row.reverse ++ below, s.machine⟩

section Outcomes

variable {limits : Limits} {code : List UInt8} {size : Nat}

/-- Rounds that each come to the start of another one or to an end come to an end. -/
theorem Mirrors.rounds {round : Run Bool} {P Q : RunState → Config → Prop}
    (h : ∀ s c, P s c → Mirrors limits code size c (round s) fun again t c' =>
      if again = true then P t c' else Q t c') :
    ∀ (fuel : Nat) (s : RunState) (c : Config), P s c →
      Mirrors limits code size c (Run.rounds fuel round s) fun _ => Q
  | 0, _, _, _ => Or.inl rfl
  | fuel + 1, s, c, hP => by
      rw [Run.rounds]
      refine (h s c hP).bind fun again t c' ht => ?_
      cases again with
      | true => exact Mirrors.rounds h fuel t c' ht
      | false => exact .ok ht

/-- A round of a loop, with what holds behind the condition and behind the body. -/
theorem Mirrors.round {ctx : RunContext} {test : Run Word} {body post : Run Flow} {s : RunState}
    {c : Config} {T : Word → RunState → Config → Prop} {B : RunState → Config → Prop}
    {P Q : RunState → Config → Prop}
    (htest : ∀ t, Steady s t → t.machine = s.machine → Mirrors limits code size c (test t) T)
    (hleave : ∀ t c', T 0 t c' → ∃ c'', Walks limits code size c' c'' ∧ Q t c'')
    (hbody : ∀ w t c', T w t c' → w ≠ 0 → Mirrors limits code size c' (body t) fun flow u c'' =>
      if flow = .brk then Q u c'' else B u c'')
    (hpost : ∀ t c', B t c' → Mirrors limits code size c' (post t) fun _ => P) :
    Mirrors limits code size c (Run.round ctx test body post s) fun again t c' =>
      if again = true then P t c' else Q t c' := by
  rw [Run.round]
  refine Mirrors.stepped fun s₀ hs₀ hm₀ => ?_
  refine (htest s₀ hs₀ hm₀).bind fun w t c' ht => ?_
  -- The word of the condition decides whether there is a round at all.
  by_cases hw : w = 0
  · subst hw
    rcases hleave t c' ht with ⟨c'', hwalk, hQ⟩
    rw [if_pos rfl]
    exact .walk hwalk (.ok hQ)
  · rw [if_neg hw]
    refine (hbody w t c' ht hw).bind fun flow u c'' hu => ?_
    -- Unless it breaks, the body is followed by the post part.
    cases flow with
    | brk => exact .ok hu
    | next => exact (hpost u c'' hu).bind fun _ _ _ hP => .ok hP
    | cont => exact (hpost u c'' hu).bind fun _ _ _ hP => .ok hP

end Outcomes

namespace Site.Framed

variable {d : Dialect} {items : List Item} {k : Site} {v : Sight} {s t : RunState}
  {row : List Word}

theorem steady (h : k.Framed d items v s.env row) (hst : Steady s t) :
    k.Framed d items v t.env row := by
  rw [hst.env]
  exact h

/-- More words on top of the frame. -/
theorem push (h : k.Framed d items v s.env row) (more : List Word) :
    (k.push more.length).Framed d items v s.env (row ++ more) where
  suits := h.suits.push more.length
  holds := h.holds
  length := by
    rw [List.length_append, h.length]
    rfl
  agrees := h.agrees.append h.suits h.length

/-- The frame at the start of a block. -/
theorem enter {stmts : List Stmt} {entry : FunctionDef → Nat} {inLoop : Bool} {piece : List Item}
    {first last : Nat} (h : k.Framed d items v s.env row)
    (hfree : v.Free d ((stmts.filterMap Stmt.function?).map (·.name)))
    (hfits : Stmt.FitsSeq d (v.enter stmts) inLoop stmts)
    (hcomparable : ∀ s ∈ Stmt.allStmtsSeq stmts, s.comparable d = true)
    (hcode : Stmt.CodedSeq d (k.enter stmts entry) stmts piece)
    (hspan : Item.Span items first piece last) :
    (k.enter stmts entry).Framed d items (v.enter stmts)
      ({ s with env := .empty :: s.env } : RunState).env row where
  suits := h.suits.enter hfree hfits hcomparable hcode hspan
  holds := h.holds.push
  length := h.length
  agrees := h.agrees

/-- The frame of the body of a loop. -/
theorem inLoop (h : k.Framed d items v s.env row) (exit next : Nat) :
    (k.inLoop exit next).Framed d items v s.env row where
  suits := ⟨h.suits.distinct, h.suits.fit, h.suits.functions, h.suits.placed, h.suits.comparable,
    h.suits.laid.inLoop exit next⟩
  holds := h.holds
  length := h.length
  agrees := h.agrees

/-- The frame behind a statement, given what the interpreter leaves. -/
theorem after {s₁ : Stmt} {inLoop : Bool} {names : List String} {row' : List Word}
    (h : k.Framed d items v s.env row) (hfits : s₁.Fits d v inLoop)
    (hreached : Reached v (v.after s₁) inLoop names s .next t)
    (hlength : row'.length = (k.after s₁).height)
    (hagrees : (k.after s₁).Agrees (v.after s₁) t.env row') :
    (k.after s₁).Framed d items (v.after s₁) t.env row' :=
  ⟨h.suits.after hfits, hreached.holds, hlength, hagrees⟩

end Site.Framed

section Comparable

variable {d : Dialect} {s : Stmt}

/-- The expressions of a comparable statement are comparable. -/
theorem Stmt.comparable_exprs (h : s.comparable d = true) :
    ∀ e ∈ s.exprsHere, e.comparable d = true := by
  rw [Stmt.comparable, Bool.and_eq_true, List.all_eq_true] at h
  exact h.2

theorem Stmt.comparable_nodup (h : s.comparable d = true) : s.assignsHere.Nodup := by
  rw [Stmt.comparable, Bool.and_eq_true, decide_eq_true_eq] at h
  exact h.1

end Comparable

section Expressions

variable {ctx : RunContext} {call : Caller} {items : List Item} {code : List UInt8} {k : Site}
  {v : Sight} {e : Expr} {piece : List Item} {first last : Nat} {row below : List Word}
  {s : RunState}

/-- The values of an expression are pushed on the frame. -/
theorem Caller.Hosted.run (h : call.Hosted ctx items code) {count : Nat}
    (hcode : e.Coded ctx.dialect k count piece) (hspan : Item.Span items first piece last)
    (hcomparable : e.comparable ctx.dialect = true) (hyields : e.Yields ctx.dialect v count)
    (hk : k.Framed ctx.dialect items v s.env row) :
    Mirrors ctx.limits code (Item.sizeAll items) ⟨first, row.reverse ++ below, s.machine⟩
      (e.run ctx call v.functions s) fun values t c' =>
        c' = ⟨last, (row ++ values).reverse ++ below, t.machine⟩ ∧ values.length = count ∧
          Steady s t := by
  refine ((Expr.run_mirrored h.loaded h.sound h.lexical h.mirrored e hcode hspan hcomparable hyields
    hk.suits hk.holds hk.length hk.agrees).and
      (Expr.run_sound h.sound hk.suits.distinct hk.suits.fit hyields hk.holds)).mono ?_
  rintro values t c' ⟨rfl, hlength, hst⟩
  refine ⟨_, .refl _, ?_, hlength, hst⟩
  rw [List.reverse_append, List.append_assoc]

/-- The value of an expression is pushed on the frame. -/
theorem Caller.Hosted.runSingle (h : call.Hosted ctx items code)
    (hcode : e.Coded ctx.dialect k 1 piece) (hspan : Item.Span items first piece last)
    (hcomparable : e.comparable ctx.dialect = true) (hyields : e.Yields ctx.dialect v 1)
    (hk : k.Framed ctx.dialect items v s.env row) :
    Mirrors ctx.limits code (Item.sizeAll items) ⟨first, row.reverse ++ below, s.machine⟩
      (e.runSingle ctx call v.functions s) fun value t c' =>
        c' = ⟨last, value :: (row.reverse ++ below), t.machine⟩ ∧ Steady s t := by
  rw [Expr.runSingle]
  refine (h.run hcode hspan hcomparable hyields hk).bind ?_
  rintro values t c' ⟨rfl, hlength, hst⟩
  refine (Mirrors.single hlength).mono ?_
  rintro value _ _ ⟨rfl, rfl, rfl⟩
  refine ⟨_, .refl _, ?_, hst⟩
  rw [List.reverse_append]
  rfl

end Expressions

section Statements

variable {ctx : RunContext} {call : Caller} {items : List Item} {code : List UInt8}

/-- What a block leaves behind outside of it. The variables of the block have been dropped if
    control goes on with the next statement. -/
theorem Site.Arrives.close (hl : Loaded items code) (limits : Limits) {d : Dialect} {k : Site}
    {v : Sight} {stmts : List Stmt} {entry : FunctionDef → Nat} {inLoop : Bool} {below : List Word}
    {middle last : Nat} {flow : Flow} {t : RunState} {c : Config}
    (hfits : Stmt.FitsSeq d (v.enter stmts) inLoop stmts)
    (hpops : Item.Span items middle (Item.pops (Stmt.declaredSeq stmts).length) last)
    (harrives : (k.enter stmts entry).Arrives items (v.enter stmts) below
      ((k.enter stmts entry).afterSeq stmts) ((v.enter stmts).afterSeq stmts) middle flow t c)
    (hcloses : Closes v t) :
    ∃ c', Walks limits code (Item.sizeAll items) c c' ∧
      k.Arrives items v below k v last flow { t with env := t.env.tail } c' := by
  -- A loop around the block has lost nothing but words on top of its frame.
  have hleaves : ∀ goal, (k.enter stmts entry).Leaves items (v.enter stmts) below goal t c →
      k.Leaves items v below goal { t with env := t.env.tail } c := by
    rintro goal ⟨l, position, row, hloop, hlabel, hrow, hagrees, rfl⟩
    have hagrees : k.Agrees v t.env row := hagrees
    exact ⟨l, position, row, hloop, hlabel, hrow, hagrees.tail hcloses, rfl⟩
  cases flow with
  | brk => exact ⟨c, .refl c, hleaves _ harrives⟩
  | cont => exact ⟨c, .refl c, hleaves _ harrives⟩
  | next =>
      rcases harrives with ⟨row, hrow, hagrees, rfl⟩
      rw [Site.height_afterSeq] at hrow
      have hbefore : (k.enter stmts entry).Agrees (v.enter stmts) t.env row :=
        hagrees.beforeSeq hfits
      have hagrees : k.Agrees v t.env row := hbefore
      refine ⟨_, hl.walk_lower hrow hpops, row.take k.height, ?_,
        (hagrees.take _).tail hcloses, rfl⟩
      have hle : k.height ≤ row.length := by
        rw [hrow]
        exact Nat.le_add_right _ _
      rw [List.length_take, Nat.min_eq_left hle]

/-- The machine goes on from behind a statement. -/
theorem Site.Arrives.onward {k k' : Site} {v v' : Sight} {below : List Word} {last last' : Nat}
    {flow : Flow} {t : RunState} {c : Config} {limits : Limits} {size : Nat}
    (harrives : k.Arrives items v below k' v' last flow t c)
    (hwalk : ∀ stack state, Walks limits code size ⟨last, stack, state⟩ ⟨last', stack, state⟩) :
    ∃ c', Walks limits code size c c' ∧ k.Arrives items v below k' v' last' flow t c' := by
  cases flow with
  | brk => exact ⟨c, .refl c, harrives⟩
  | cont => exact ⟨c, .refl c, harrives⟩
  | next =>
      rcases harrives with ⟨row, hrow, hagrees, rfl⟩
      exact ⟨_, hwalk _ _, row, hrow, hagrees, rfl⟩

/-- A jump out of the body of a loop drops what is on top of the frame of the loop. -/
theorem Site.CodedLeave.leaves (hl : Loaded items code) (limits : Limits) (below : List Word)
    {d : Dialect} {k : Site} {v : Sight}
    {goal : LoopSite → Nat} {piece : List Item} {first last : Nat} {row : List Word}
    {s : RunState} (h : k.CodedLeave goal piece)
    (hspan : Item.Span items first piece last) (hk : k.Framed d items v s.env row) :
    ∃ c', Walks limits code (Item.sizeAll items) ⟨first, row.reverse ++ below, s.machine⟩ c' ∧
      k.Leaves items v below goal s c' := by
  rcases h with ⟨l, hloop, hle, rfl⟩
  rcases hspan.append with ⟨middle, hpops, hgoTo⟩
  rcases hl.exists_label (Item.Span.cons hgoTo).1 with ⟨position, hlabel⟩
  have hrow : row.length = l.height + (k.height - l.height) := by
    rw [hk.length]
    omega
  refine ⟨_, (hl.walk_lower hrow hpops).trans (hl.walk_goTo hgoTo hlabel), l, position,
    row.take l.height, hloop, hlabel, ?_, hk.agrees.take _, rfl⟩
  rw [List.length_take, hrow, Nat.min_eq_left (Nat.le_add_right _ _)]

/-- The rounds of a loop, from before the test to behind the loop, where its initialisation still
    has to be dropped. -/
theorem Site.rounds_mirrored (below : List Word) {k : Site} {v : Sight} {test : Run Word}
    {body post : Run Flow} {start again exit top tested inside turn behind bottom : Nat}
    {names names' : List String} (hl : Loaded items code)
    (hstart : (Item.label start).StandsAt items top)
    (hagain : (Item.label again).StandsAt items turn)
    (hexit : (Item.label exit).StandsAt items bottom)
    (hleave : Item.Span items tested (Item.goToUnless exit) inside)
    (hback : Item.Span items behind (Item.goTo start) bottom)
    (htest : ∀ s row, k.Framed ctx.dialect items v s.env row →
      Mirrors ctx.limits code (Item.sizeAll items)
        ⟨top + (Item.label start).size, row.reverse ++ below, s.machine⟩ (test s) fun w t c =>
          c = ⟨tested, w :: (row.reverse ++ below), t.machine⟩ ∧ Steady s t)
    (hbody : ∀ s row, (k.inLoop exit again).Framed ctx.dialect items v s.env row →
      Mirrors ctx.limits code (Item.sizeAll items) ⟨inside, row.reverse ++ below, s.machine⟩
        (body s)
          ((k.inLoop exit again).Arrives items v below (k.inLoop exit again) v turn) ∧
        Ends (body s) (Left v true names s))
    (hpost : ∀ s row, k.Framed ctx.dialect items v s.env row →
      Mirrors ctx.limits code (Item.sizeAll items)
          ⟨turn + (Item.label again).size, row.reverse ++ below, s.machine⟩ (post s)
          (k.Arrives items v below k v behind) ∧
        Ends (post s) (Left v false names' s))
    (fuel : Nat) {s : RunState} {c : Config} (hs : k.Rests ctx.dialect items v below top s c) :
    Mirrors ctx.limits code (Item.sizeAll items) c
      (Run.rounds fuel (Run.round ctx test body post) s)
      fun _ => k.Rests ctx.dialect items v below bottom := by
  -- One round is mirrored from the top of the loop to its end or to the top again.
  refine Mirrors.rounds (P := k.Rests ctx.dialect items v below top) ?_ fuel s c hs
  rintro s _ ⟨row, hk, rfl⟩
  refine .walk (.one hstart.lt_sizeAll (hl.step_label hstart)) ?_
  refine Mirrors.round (B := k.Rests ctx.dialect items v below turn) (T := fun w t c => Steady s t ∧
    c = ⟨tested, w :: (row.reverse ++ below), t.machine⟩) ?_ ?_ ?_ ?_
  -- The condition is evaluated in the frame of the loop.
  · intro s₀ hst hm
    rw [← hm]
    refine (htest s₀ row (hk.steady hst)).mono ?_
    rintro w t c ⟨rfl, hst'⟩
    exact ⟨_, .refl _, hst.trans hst', rfl⟩
  -- With the word zero the jump leads to the end.
  · rintro t _ ⟨hst, rfl⟩
    refine ⟨_, hl.walk_goToUnless hleave hexit, row, hk.steady hst, ?_⟩
    rw [if_pos rfl]
  · rintro w t _ ⟨hst, rfl⟩ hw
    refine .walk (hl.walk_goToUnless hleave hexit) ?_
    rw [if_neg hw]
    have hin := (hk.steady hst).inLoop exit again
    refine ((hbody t row hin).1.and (hbody t row hin).2).mono ?_
    rintro flow u c ⟨harrives, hleft⟩
    -- A jump out of the body goes to one of the two labels of this loop.
    cases flow with
    | next =>
        rcases harrives with ⟨row', hrow', hagrees, rfl⟩
        exact ⟨_, .refl _, row', ⟨hk.suits, hleft.holds, hrow', hagrees⟩, rfl⟩
    | brk =>
        rcases harrives with ⟨l, position, row', hloop, hlabel, hrow', hagrees, rfl⟩
        obtain rfl := Option.some.inj hloop
        obtain rfl := hlabel.label_unique hl.unique hexit
        exact ⟨_, .refl _, row', ⟨hk.suits, hleft.holds, hrow', hagrees⟩, rfl⟩
    | cont =>
        rcases harrives with ⟨l, position, row', hloop, hlabel, hrow', hagrees, rfl⟩
        obtain rfl := Option.some.inj hloop
        obtain rfl := hlabel.label_unique hl.unique hagain
        exact ⟨_, .refl _, row', ⟨hk.suits, hleft.holds, hrow', hagrees⟩, rfl⟩
  -- The post part starts at its own label and ends with the jump to the start.
  · rintro t _ ⟨row, hk, rfl⟩
    refine .walk (.one hagain.lt_sizeAll (hl.step_label hagain)) ?_
    refine ((hpost t row hk).1.and (hpost t row hk).2).mono ?_
    rintro flow u c ⟨harrives, hleft⟩
    -- No jump leaves a post part.
    obtain rfl : flow = .next := by
      by_contra hflow
      exact Bool.noConfusion (hleft.leaves hflow)
    rcases harrives with ⟨row', hrow', hagrees, rfl⟩
    exact ⟨_, hl.walk_goTo hback hstart, row', ⟨hk.suits, hleft.holds, hrow', hagrees⟩, rfl⟩

/-- The machine does what a block does, from any frame of the place of the block. -/
def Block.Mirrored (ctx : RunContext) (call : Caller) (items : List Item) (code : List UInt8)
    (below : List Word) (b : Block) : Prop :=
  ∀ ⦃k : Site⦄ ⦃v : Sight⦄ ⦃inLoop : Bool⦄ ⦃piece : List Item⦄ ⦃first last : Nat⦄ ⦃row : List Word⦄
    ⦃s : RunState⦄,
    b.Coded ctx.dialect k piece → Item.Span items first piece last →
    (∀ s ∈ b.allStmts, s.comparable ctx.dialect = true) → b.Fits ctx.dialect v inLoop →
    k.Framed ctx.dialect items v s.env row →
    Mirrors ctx.limits code (Item.sizeAll items) ⟨first, row.reverse ++ below, s.machine⟩
      (b.run ctx call v.functions s) (k.Arrives items v below k v last)

/-- The machine does what statements do one after the other. -/
def Stmt.MirroredSeq (ctx : RunContext) (call : Caller) (items : List Item) (code : List UInt8)
    (below : List Word) (stmts : List Stmt) : Prop :=
  ∀ ⦃k : Site⦄ ⦃v : Sight⦄ ⦃inLoop : Bool⦄ ⦃piece : List Item⦄ ⦃first last : Nat⦄ ⦃row : List Word⦄
    ⦃s : RunState⦄,
    Stmt.CodedSeq ctx.dialect k stmts piece → Item.Span items first piece last →
    (∀ s ∈ Stmt.allStmtsSeq stmts, s.comparable ctx.dialect = true) →
    Stmt.FitsSeq ctx.dialect v inLoop stmts → k.Framed ctx.dialect items v s.env row →
    YulToolchain.Mirrors ctx.limits code (Item.sizeAll items)
      ⟨first, row.reverse ++ below, s.machine⟩
      (Stmt.runSeq ctx call v.functions stmts s)
      (k.Arrives items v below (k.afterSeq stmts) (v.afterSeq stmts) last)

/-- The machine does what a statement does. -/
def Stmt.Mirrored (ctx : RunContext) (call : Caller) (items : List Item) (code : List UInt8)
    (below : List Word) (s₁ : Stmt) : Prop :=
  ∀ ⦃k : Site⦄ ⦃v : Sight⦄ ⦃inLoop : Bool⦄ ⦃piece : List Item⦄ ⦃first last : Nat⦄ ⦃row : List Word⦄
    ⦃s : RunState⦄,
    s₁.Coded ctx.dialect k piece → Item.Span items first piece last →
    (∀ s ∈ s₁ :: s₁.allInner, s.comparable ctx.dialect = true) → s₁.Fits ctx.dialect v inLoop →
    k.Framed ctx.dialect items v s.env row →
    YulToolchain.Mirrors ctx.limits code (Item.sizeAll items)
      ⟨first, row.reverse ++ below, s.machine⟩
      (s₁.run ctx call v.functions s) (k.Arrives items v below (k.after s₁) (v.after s₁) last)

/-- The machine does what the cases of a switch do, with the subject on top of the frame. -/
def Case.MirroredSeq (ctx : RunContext) (call : Caller) (items : List Item) (code : List UInt8)
    (below : List Word) (cases : List Case) : Prop :=
  ∀ (value : Word) ⦃k : Site⦄ ⦃v : Sight⦄ ⦃inLoop : Bool⦄ ⦃seen : List Word⦄ ⦃ids : List Nat⦄
    ⦃tests bodies : List Item⦄ ⦃after first last first' last' : Nat⦄ ⦃row : List Word⦄
    ⦃s : RunState⦄,
    Case.CodedTests ctx.dialect k cases ids tests → Item.Span items first tests last →
    Case.CodedBodies ctx.dialect k after ids cases bodies → Item.Span items first' bodies last' →
    (∀ s ∈ Case.allStmtsSeq cases, s.comparable ctx.dialect = true) →
    Case.FitsSeq ctx.dialect v inLoop seen cases → (Item.label after).StandsAt items last' →
    (∀ stack state, Walks ctx.limits code (Item.sizeAll items) ⟨last, stack, state⟩
      ⟨last', stack, state⟩) →
    k.Framed ctx.dialect items v s.env (row ++ [value]) →
    Mirrors ctx.limits code (Item.sizeAll items)
      ⟨first, (row ++ [value]).reverse ++ below, s.machine⟩
      (Case.runSeq ctx call v.functions value cases s) (k.Arrives items v below k v last')

variable {below : List Word}

/-- A block is mirrored if its statements are. -/
theorem Block.Mirrored.of_stmts (h : call.Hosted ctx items code) {line : Nat} {stmts : List Stmt}
    (hstmts : Stmt.MirroredSeq ctx call items code below stmts) :
    Block.Mirrored ctx call items code below ⟨line, stmts⟩ := by
  intro k v inLoop piece first last row s hcode hspan hcomparable hfits hk
  rw [Block.Coded] at hcode
  rw [Block.allStmts] at hcomparable
  rw [Block.Fits] at hfits
  rcases hcode with ⟨entry, inner, hinner, rfl⟩
  rcases hspan.append with ⟨middle, hspan, hpops⟩
  have hin := hk.enter hfits.1 hfits.2 hcomparable hinner hspan
  have hseq := hstmts hinner hspan hcomparable hfits.2 hin
  have hsound := Stmt.runSeq_sound h.sound hin.suits.distinct hin.suits.fit hfits.2 hin.holds
  rw [Block.run]
  refine Mirrors.inScope ((hseq.and hsound).mono ?_)
  rintro flow t c' ⟨harrives, hreached⟩
  exact harrives.close h.loaded ctx.limits hfits.2 hpops hreached.closes

namespace Stmt.MirroredSeq

/-- Without statements nothing happens. -/
theorem nil : Stmt.MirroredSeq ctx call items code below [] := by
  intro k v inLoop piece first last row s hcode hspan _ _ hk
  rw [Stmt.CodedSeq] at hcode
  subst hcode
  rw [Stmt.runSeq, hspan.nil]
  exact .ok ⟨row, hk.length, hk.agrees, rfl⟩

/-- The first statement, and the others if it falls through. -/
theorem cons (h : call.Hosted ctx items code) {s₁ : Stmt} {rest : List Stmt}
    (hfirst : s₁.Mirrored ctx call items code below)
    (hrest : Stmt.MirroredSeq ctx call items code below rest) :
    Stmt.MirroredSeq ctx call items code below (s₁ :: rest) := by
  intro k v inLoop piece first last row s hcode hspan hcomparable hfits hk
  rw [Stmt.CodedSeq] at hcode
  rw [Stmt.allStmtsSeq, ← List.cons_append, List.forall_mem_append] at hcomparable
  rw [Stmt.FitsSeq] at hfits
  rcases hcode with ⟨here, later, hhere, hlater, rfl⟩
  rcases hspan.append with ⟨middle, hspan, hlast⟩
  have hone := hfirst hhere hspan hcomparable.1 hfits.1 hk
  have hsound := Stmt.run_sound h.sound hk.suits.distinct hk.suits.fit hfits.1 hk.holds
  rw [Stmt.runSeq]
  refine (hone.and hsound).bind ?_
  -- A jump out of the first statement leaves out the rest.
  rintro flow t c' ⟨harrives, hreached⟩
  cases flow with
  | brk => exact .ok harrives
  | cont => exact .ok harrives
  | next =>
      rcases harrives with ⟨row', hrow', hagrees, rfl⟩
      -- The rest starts in the frame that the first statement leaves.
      have hlater := hrest hlater hlast hcomparable.2 hfits.2
        (hk.after hfits.1 hreached hrow' hagrees)
      rw [Sight.functions_after] at hlater
      exact hlater.mono fun flow' u c'' harrives => ⟨c'', .refl c'', harrives.beforeStmt hfits.1⟩

end Stmt.MirroredSeq

namespace Stmt.Mirrored

/-- The expression is mirrored and leaves nothing. -/
theorem expr (h : call.Hosted ctx items code) {line : Nat} {e : Expr} :
    (Stmt.expr line e).Mirrored ctx call items code below := by
  intro k v inLoop piece first last row s hcode hspan hcomparable hfits hk
  rw [Stmt.Coded] at hcode
  rw [Stmt.Fits] at hfits
  have hexpr := Stmt.comparable_exprs (hcomparable _ List.mem_cons_self) e List.mem_cons_self
  rw [Stmt.run]
  refine Mirrors.stepped fun s₀ hs₀ hm₀ => ?_
  rw [← hm₀]
  refine (h.run hcode hspan hexpr hfits (hk.steady hs₀)).bind ?_
  rintro values t c' ⟨rfl, hlength, hst⟩
  obtain rfl := List.length_eq_zero_iff.mp hlength
  have hk := (hk.steady hs₀).steady hst
  exact .ok ⟨row, hk.length, hk.agrees, by rw [List.append_nil]⟩

/-- The values are stored from the last to the first, and the interpreter assigns them from the
    first to the last. It is the same since the targets differ. -/
theorem assign (h : call.Hosted ctx items code) {line : Nat} {targets : List Identifier}
    {value : Expr} : (Stmt.assign line targets value).Mirrored ctx call items code below := by
  intro k v inLoop piece first last row s hcode hspan hcomparable hfits hk
  rw [Stmt.Coded] at hcode
  rw [Stmt.Fits] at hfits
  have hhere := hcomparable _ List.mem_cons_self
  have hexpr := Stmt.comparable_exprs hhere value List.mem_cons_self
  have hnodup : (targets.map (·.name)).Nodup := Stmt.comparable_nodup hhere
  -- The values are pushed, and stored from the top.
  rcases hcode with ⟨inner, moves, hinner, hmoves, rfl⟩
  rcases hspan.append with ⟨middle, hfirst, hlast⟩
  rw [Stmt.run]
  refine Mirrors.stepped fun s₀ hs₀ hm₀ => ?_
  rw [← hm₀]
  -- The value is mirrored in a frame that a step does not change.
  refine (h.run hinner hfirst hexpr hfits.1 (hk.steady hs₀)).bind ?_
  rintro values t c' ⟨rfl, hlength, hst⟩
  have hk := (hk.steady hs₀).steady hst
  rcases hmoves.walk h.loaded hk.suits.laid hlast ctx.limits below
    t.machine hk.length hlength with ⟨row', hrow', hother, hwalk⟩
  have hfst : ((targets.map (·.name)).zip values).map (·.1) = targets.map (·.name) :=
    List.map_fst_zip (by rw [List.length_map, hlength])
  -- Every target is visible, so the interpreter can assign it.
  have hpairs : ∀ p ∈ (targets.map (·.name)).zip values, p.1 ∈ v.visible := by
    intro p hp
    rcases List.mem_map.mp (List.of_mem_zip hp).1 with ⟨target, htarget, hname⟩
    rw [← hname]
    exact hfits.2 target htarget
  rcases Run.assignAll_eq hpairs hk.holds with ⟨env, hassign, _, hget⟩
  rw [if_pos hlength]
  -- The interpreter assigns at once what the machine stores in as many steps.
  refine Mirrors.bind (P := fun _ u c' => u = { t with env } ∧
    c' = ⟨middle, (row ++ values).reverse ++ below, t.machine⟩) ?_ ?_
  · rw [hassign]
    exact ⟨_, .refl _, rfl, rfl⟩
  rintro _ _ _ ⟨rfl, rfl⟩
  -- A slot holds what its variable is now, since the targets are different.
  refine .walk hwalk (.ok ⟨row', hrow', fun x hx slot hlt hslot => ?_, rfl⟩)
  have hslot : k.slots.lookup x = some slot := hslot
  rw [hother x slot hslot, hget x, lookup_reverse_of_nodup (by rw [hfst]; exact hnodup),
    hk.agrees x hx slot (by rw [hk.length, ← hrow']; exact hlt) hslot]

/-- The values stay on the stack, where they are the slots of the variables. -/
theorem decl (h : call.Hosted ctx items code) {line : Nat} {vars : List TypedName}
    {value : Option Expr} : (Stmt.decl line vars value).Mirrored ctx call items code below := by
  intro k v inLoop piece first last row s hcode hspan hcomparable hfits hk
  rw [Stmt.Fits] at hfits
  -- Either way the values on the stack become the variables.
  have hdeclare : ∀ (values : List Word) (t : RunState), Steady s t →
      values.length = vars.length → YulToolchain.Mirrors ctx.limits code (Item.sizeAll items)
        ⟨last, (row ++ values).reverse ++ below, t.machine⟩
        ((do
          Run.modifyEnv (Environment.declareAll ((vars.map TypedName.name).zip values))
          return Flow.next) t)
        (k.Arrives items v below (k.after (.decl line vars value))
          (v.after (.decl line vars value)) last) := by
    intro values t hst hlength
    have hk := hk.steady hst
    have hlength' : values.length = (vars.map (·.name)).length := by
      rw [hlength, List.length_map]
    refine .ok ⟨row ++ values, ?_, ?_, rfl⟩
    · rw [List.length_append, hk.length, hlength']
      rfl
    · exact hk.agrees.declareAll hk.suits hk.length hfits.2 hlength' hk.holds
  rw [Stmt.run]
  refine Mirrors.stepped fun s₀ hs₀ hm₀ => ?_
  rw [← hm₀]
  -- With a value the stack has what it left, without one as many zeros as there are variables.
  cases value with
  | some e =>
      rw [Stmt.Coded] at hcode
      have hexpr := Stmt.comparable_exprs (hcomparable _ List.mem_cons_self) e List.mem_cons_self
      refine (h.run hcode hspan hexpr (hfits.1 e rfl) (hk.steady hs₀)).bind ?_
      rintro values t c' ⟨rfl, hlength, hst⟩
      dsimp only
      rw [if_pos hlength]
      exact hdeclare values t (hs₀.trans hst) hlength
  | none =>
      rw [Stmt.Coded] at hcode
      subst hcode
      have hzeros := hdeclare (List.replicate vars.length 0) s₀ hs₀ List.length_replicate
      rw [List.reverse_append, List.reverse_replicate, List.append_assoc] at hzeros
      refine .walk (h.loaded.walk_zeros hspan) ?_
      refine Mirrors.bind (P := fun values u c' => values = List.replicate vars.length 0 ∧
        u = s₀ ∧ c' = _) ⟨_, .refl _, rfl, rfl, rfl⟩ ?_
      rintro _ _ _ ⟨rfl, rfl, rfl⟩
      dsimp only
      rw [if_pos List.length_replicate]
      exact hzeros

/-- The code of a definition is jumped over. -/
theorem func (h : call.Hosted ctx items code) {line : Nat} {name : String}
    {params returns : List TypedName} {body : Block} :
    (Stmt.func line name params returns body).Mirrored ctx call items code below := by
  intro k v inLoop piece first last row s hcode hspan _ _ hk
  rw [Stmt.Coded] at hcode
  rcases hcode with ⟨entry, after, inner, moves, _, _, _, rfl⟩
  rcases hspan.append with ⟨_, hspan, hlast⟩
  rcases hspan.append with ⟨_, hgoTo, -⟩
  rcases hlast.cons with ⟨hlabel, hend⟩
  rw [Stmt.run]
  refine Mirrors.stepped fun s₀ hs₀ hm₀ => ?_
  rw [← hm₀, hend.nil]
  have hk := hk.steady hs₀
  exact .walk ((h.loaded.walk_goTo hgoTo hlabel).trans (.one hlabel.lt_sizeAll
    (h.loaded.step_label hlabel))) (.ok ⟨row, hk.length, hk.agrees, rfl⟩)

/-- The condition decides in both runs whether the body is run. -/
theorem cond (h : call.Hosted ctx items code) {line : Nat} {test : Expr} {body : Block}
    (hrun : body.Mirrored ctx call items code below) :
    (Stmt.cond line test body).Mirrored ctx call items code below := by
  intro k v inLoop piece first last row s hcode hspan hcomparable hfits hk
  rw [Stmt.Coded] at hcode
  rw [Stmt.Fits] at hfits
  have hexpr := Stmt.comparable_exprs (hcomparable _ List.mem_cons_self) test List.mem_cons_self
  rw [Stmt.allInner, List.forall_mem_cons] at hcomparable
  -- The code is the condition, the jump, the body and the label.
  rcases hcode with ⟨after, value, inner, hvalue, hinner, rfl⟩
  rcases hspan.append with ⟨_, hspan, hlast⟩
  rcases hspan.append with ⟨_, hspan, hbody⟩
  rcases hspan.append with ⟨_, htest, hgoTo⟩
  rcases hlast.cons with ⟨hlabel, hend⟩
  rw [Stmt.run]
  refine Mirrors.stepped fun s₀ hs₀ hm₀ => ?_
  rw [← hm₀, hend.nil]
  refine (h.runSingle hvalue htest hexpr hfits.1 (hk.steady hs₀)).bind ?_
  rintro w t c' ⟨rfl, hst⟩
  have hk := (hk.steady hs₀).steady hst
  refine .walk (h.loaded.walk_goToUnless hgoTo hlabel) ?_
  -- Zero leads to the label at once.
  by_cases hw : w = 0
  · rw [if_pos hw, if_pos hw]
    exact .walk (.one hlabel.lt_sizeAll (h.loaded.step_label hlabel))
      (.ok ⟨row, hk.length, hk.agrees, rfl⟩)
  -- Otherwise the body arrives there.
  · rw [if_neg hw, if_neg hw]
    exact (hrun hinner hbody hcomparable.2 hfits.2 hk).mono
      fun flow u c' harrives => harrives.onward fun stack state =>
        .one hlabel.lt_sizeAll (h.loaded.step_label hlabel)

/-- The subject lies on the frame while the cases run, and is dropped at the end. -/
theorem switch (h : call.Hosted ctx items code) {line : Nat} {subject : Expr}
    {cases : List Case} (hruns : Case.MirroredSeq ctx call items code below cases) :
    (Stmt.switch line subject cases).Mirrored ctx call items code below := by
  intro k v inLoop piece first last row s hcode hspan hcomparable hfits hk
  rw [Stmt.Coded] at hcode
  rw [Stmt.Fits] at hfits
  have hexpr := Stmt.comparable_exprs (hcomparable _ List.mem_cons_self) subject List.mem_cons_self
  rw [Stmt.allInner, List.forall_mem_cons] at hcomparable
  rcases hcode with ⟨after, ids, value, tests, bodies, hvalue, htests, hbodies, rfl⟩
  rcases hspan.append with ⟨_, hspan, hlast⟩
  rcases hspan.append with ⟨_, hspan, hbodiesspan⟩
  rcases hspan.append with ⟨_, hspan, hgoTo⟩
  rcases hspan.append with ⟨_, hvaluespan, htestsspan⟩
  rcases hlast.cons with ⟨hlabel, hlast⟩
  have hpop : Item.Span items _ (Item.pops 1) last := hlast
  rw [Stmt.run]
  refine Mirrors.stepped fun s₀ hs₀ hm₀ => ?_
  rw [← hm₀]
  refine (h.runSingle hvalue hvaluespan hexpr hfits.1 (hk.steady hs₀)).bind ?_
  rintro w t c' ⟨rfl, hst⟩
  have hk := (hk.steady hs₀).steady hst
  have hcases := hruns w htests htestsspan hbodies hbodiesspan
    hcomparable.2 hfits.2 hlabel (fun stack state => h.loaded.walk_goTo hgoTo hlabel) (hk.push [w])
  rw [List.reverse_append] at hcases
  refine hcases.mono fun flow u c' harrives => ?_
  -- The subject is dropped at the end.
  cases flow with
  | brk => exact ⟨c', .refl c', harrives⟩
  | cont => exact ⟨c', .refl c', harrives⟩
  | next =>
      rcases harrives with ⟨row', hrow', hagrees, rfl⟩
      have hagrees : k.Agrees v u.env row' := hagrees
      refine ⟨_, .trans (.one hlabel.lt_sizeAll (h.loaded.step_label hlabel))
        (h.loaded.walk_lower hrow' hpop), row'.take k.height, ?_, hagrees.take _, rfl⟩
      rw [List.length_take, hrow']
      exact Nat.min_eq_left (Nat.le_add_right _ _)

/-- The variables of the initialisation lie on the frame during all rounds, and are dropped at
    the end. -/
theorem loop (h : call.Hosted ctx items code) {line preLine : Nat} {pre : List Stmt}
    {test : Expr} {post body : Block} (hinit : Stmt.MirroredSeq ctx call items code below pre)
    (hround : body.Mirrored ctx call items code below)
    (hthen : post.Mirrored ctx call items code below) :
    (Stmt.loop line ⟨preLine, pre⟩ test post body).Mirrored ctx call items code below := by
  intro k v inLoop piece first last row s hcode hspan hcomparable hfits hk
  rw [Stmt.Coded] at hcode
  rw [Stmt.Fits] at hfits
  have hexpr := Stmt.comparable_exprs (hcomparable _ List.mem_cons_self) test List.mem_cons_self
  rw [Stmt.allInner, Block.allStmts, List.forall_mem_cons, List.forall_mem_append,
    List.forall_mem_append] at hcomparable
  rcases hcomparable with ⟨_, ⟨hcpre, hcbody⟩, hcpost⟩
  rcases hfits with ⟨hfree, hfpre, hftest, hfbody, hfpost⟩
  rcases hcode with ⟨entry, start, again, exit, begin, value, inner, finish, hpre, hvalue, hbody,
    hpost, rfl⟩
  rcases hspan.append with ⟨top, hprespan, hspan⟩
  rcases hspan.cons with ⟨hstart, hspan⟩
  rcases hspan.append with ⟨turn, hspan, hlast⟩
  rcases hspan.append with ⟨_, hspan, hbodyspan⟩
  rcases hspan.append with ⟨_, htestspan, hgoTo⟩
  rcases hlast.cons with ⟨hagain, hlast⟩
  rcases hlast.append with ⟨bottom, hlast, hpops⟩
  rcases hlast.append with ⟨_, hpostspan, hback⟩
  rcases hpops.cons with ⟨hexit, hpops⟩
  rw [Stmt.run]
  refine Mirrors.stepped fun s₀ hs₀ hm₀ => ?_
  rw [← hm₀]
  have hk := hk.steady hs₀
  have hin := hk.enter hfree hfpre hcpre hpre hprespan
  have hseq := hinit hpre hprespan hcpre hfpre hin
  have hsound := Stmt.runSeq_sound h.sound hin.suits.distinct hin.suits.fit hfpre hin.holds
  refine Mirrors.bind (P := fun _ => k.Arrives items v below k v last .next) (Mirrors.inScope ?_)
    fun _ t c' harrives => .ok harrives
  refine (hseq.and hsound).bind ?_
  rintro flow t c' ⟨harrives, hreached⟩
  -- An initialisation does not leave a loop around it.
  obtain rfl : flow = .next := by
    by_contra hflow
    exact Bool.noConfusion (hreached.leaves hflow)
  rcases harrives with ⟨row', hrow', hagrees, rfl⟩
  -- The site and the sight of everything but the initialisation.
  have hframed : ((k.enter pre entry).afterSeq pre).Framed ctx.dialect items
      ((v.enter pre).afterSeq pre) t.env row' :=
    ⟨hin.suits.afterSeq hfpre, hreached.holds, hrow', hagrees⟩
  obtain ⟨k', hk'⟩ : ∃ k', k' = (k.enter pre entry).afterSeq pre := ⟨_, rfl⟩
  obtain ⟨v', hv'⟩ : ∃ v', v' = (v.enter pre).afterSeq pre := ⟨_, rfl⟩
  have hfunctions : v'.functions = (⟨preLine, pre⟩ : Block).functions :: v.functions := by
    rw [hv', Sight.functions_afterSeq]
    rfl
  rw [← hk'] at hvalue hbody hpost
  rw [← hv'] at hftest hfbody hfpost
  rw [← hk', ← hv'] at hframed
  rw [← hfunctions]
  have hrounds := Site.rounds_mirrored below h.loaded hstart hagain hexit hgoTo hback
    (fun u row hu => h.runSingle hvalue htestspan hexpr hftest hu)
    (fun u row hu => ⟨hround hbody hbodyspan hcbody hfbody hu,
      Block.run_sound h.sound hu.suits.distinct hu.suits.fit hfbody hu.holds⟩)
    (fun u row hu => ⟨hthen hpost hpostspan hcpost hfpost hu,
      Block.run_sound h.sound hu.suits.distinct hu.suits.fit hfpost hu.holds⟩)
    (ctx.limits.maxSteps + 1) ⟨row', hframed, rfl⟩
  refine hrounds.mono ?_
  rintro _ u c' ⟨row, hu, rfl⟩
  rw [hk', hv'] at hu
  have harrives : (k.enter pre entry).Arrives items (v.enter pre) below
      ((k.enter pre entry).afterSeq pre) ((v.enter pre).afterSeq pre) _ .next u
      ⟨bottom + (Item.label exit).size, row.reverse ++ below, u.machine⟩ :=
    ⟨row, hu.length, hu.agrees, rfl⟩
  rcases harrives.close h.loaded ctx.limits hfpre hpops
    (hu.holds.closes hu.suits.distinct) with ⟨c', hwalk, harrives⟩
  exact ⟨c', .trans (.one hexit.lt_sizeAll (h.loaded.step_label hexit)) hwalk, harrives⟩

/-- A break is a jump to the end of the loop. -/
theorem brk (h : call.Hosted ctx items code) {line : Nat} :
    (Stmt.brk line).Mirrored ctx call items code below := by
  intro k v inLoop piece first last row s hcode hspan _ _ hk
  rw [Stmt.Coded] at hcode
  rw [Stmt.run]
  refine Mirrors.stepped fun s₀ hs₀ hm₀ => ?_
  rw [← hm₀]
  rcases hcode.leaves h.loaded ctx.limits below hspan (hk.steady hs₀) with
    ⟨c', hwalk, hleaves⟩
  exact .walk hwalk (.ok hleaves)

/-- A continue is a jump to the post part. -/
theorem cont (h : call.Hosted ctx items code) {line : Nat} :
    (Stmt.cont line).Mirrored ctx call items code below := by
  intro k v inLoop piece first last row s hcode hspan _ _ hk
  rw [Stmt.Coded] at hcode
  rw [Stmt.run]
  refine Mirrors.stepped fun s₀ hs₀ hm₀ => ?_
  rw [← hm₀]
  rcases hcode.leaves h.loaded ctx.limits below hspan (hk.steady hs₀) with
    ⟨c', hwalk, hleaves⟩
  exact .walk hwalk (.ok hleaves)

/-- A block is run as a statement. -/
theorem block {b : Block} (hrun : b.Mirrored ctx call items code below) :
    (Stmt.block b).Mirrored ctx call items code below := by
  intro k v inLoop piece first last row s hcode hspan hcomparable hfits hk
  rw [Stmt.Coded] at hcode
  rw [Stmt.Fits] at hfits
  rw [Stmt.allInner, List.forall_mem_cons] at hcomparable
  rw [Stmt.run]
  refine Mirrors.stepped fun s₀ hs₀ hm₀ => ?_
  rw [← hm₀]
  exact hrun hcode hspan hcomparable.2 hfits (hk.steady hs₀)

/-- There is no code for what is in loose assembly only. -/
theorem label {line : Nat} {name : String} :
    (Stmt.label line name).Mirrored ctx call items code below := by
  intro _ _ _ _ _ _ _ _ hcode _ _ _ _
  rw [Stmt.Coded] at hcode
  exact hcode.elim

/-- Assignments from the stack do not fit. -/
theorem stackAssign {line : Nat} {target : Identifier} :
    (Stmt.stackAssign line target).Mirrored ctx call items code below := by
  intro _ _ _ _ _ _ _ _ hcode _ _ _ _
  rw [Stmt.Coded] at hcode
  exact hcode.elim

end Stmt.Mirrored

namespace Case.MirroredSeq

/-- Without cases control falls through. -/
theorem nil : Case.MirroredSeq ctx call items code below [] := by
  intro value k v inLoop seen ids tests bodies after first last first' last' row s htests hspan _ _
    _ _ _ hskip hk
  rw [Case.codedTests_nil] at htests
  obtain ⟨-, rfl⟩ := htests
  rw [Case.runSeq, ← hspan.nil]
  exact .walk (hskip _ _) (.ok ⟨row ++ [value], hk.length, hk.agrees, rfl⟩)

/-- The default is run where the comparisons end. -/
theorem default {line : Nat} {body : Block} {rest : List Case}
    (hrun : body.Mirrored ctx call items code below) :
    Case.MirroredSeq ctx call items code below (⟨line, none, body⟩ :: rest) := by
  intro value k v inLoop seen ids tests bodies after first last first' last' row s htests hspan _ _
    hcomparable hfits _ hskip hk
  rw [Case.codedTests_default] at htests
  rw [Case.FitsSeq] at hfits
  rw [Case.allStmtsSeq, List.forall_mem_append] at hcomparable
  rw [Case.runSeq]
  exact (hrun htests.2.2 hspan hcomparable.1 hfits.1 hk).mono
    fun flow t c' harrives => harrives.onward hskip

/-- The case that is equal is run, and the others are compared if it is not. -/
theorem value (h : call.Hosted ctx items code) {line : Nat} {l : Literal} {body : Block}
    {rest : List Case} (hrun : body.Mirrored ctx call items code below)
    (hrest : Case.MirroredSeq ctx call items code below rest) :
    Case.MirroredSeq ctx call items code below (⟨line, some l, body⟩ :: rest) := by
  intro value k v inLoop seen ids tests bodies after first last first' last' row s htests hspan
    hbodies hspan' hcomparable hfits hlabel hskip hk
  -- The comparison stands among the tests, the body among the bodies.
  rw [Case.codedTests_value] at htests
  rcases htests with ⟨w, id, others, later, hw, rfl, hlater, rfl⟩
  rw [Case.CodedBodies] at hbodies
  rcases hbodies with ⟨inner, more, hinner, hmore, rfl⟩
  rw [Case.FitsSeq] at hfits
  rcases hfits with ⟨_, _, _, hfbody, hfrest⟩
  rw [Case.allStmtsSeq, List.forall_mem_append] at hcomparable
  rcases hspan'.cons with ⟨hid, hspan'⟩
  rcases hspan'.append with ⟨_, hspan', hmorespan⟩
  rcases hspan'.append with ⟨middle, hinnerspan, hgoTo⟩
  have hspan : Item.Span items first ((.constant w :: .instruction (.dup 1) :: .instruction .eq
    :: Item.goToIf id) ++ later) last := hspan
  rcases hspan.append with ⟨_, hcase, hlaterspan⟩
  -- The subject is on top.
  have hstack : (row ++ [value]).reverse ++ below = value :: (row.reverse ++ below) := by
    rw [List.reverse_append]
    rfl
  rw [Case.runSeq]
  refine Mirrors.bind (P := fun w' t c' => w' = w ∧ t = s ∧
    c' = ⟨first, (row ++ [value]).reverse ++ below, s.machine⟩) ?_ ?_
  · rw [Run.literal, hw]
    exact ⟨_, .refl _, rfl, rfl, rfl⟩
  rintro w _ _ ⟨rfl, rfl, rfl⟩
  refine .walk (hstack ▸ h.loaded.walk_goToCase hcase hid) ?_
  -- Both runs compare the same two words.
  by_cases hwv : w = value
  · rw [if_pos hwv, if_pos hwv]
    refine .walk (.one hid.lt_sizeAll (h.loaded.step_label hid)) ?_
    refine (hrun hinner hinnerspan hcomparable.1 hfbody hk).mono
      fun flow t c' harrives => harrives.onward fun stack state => ?_
    -- The last of the bodies runs into the end, and the others jump there.
    split at hgoTo
    · rename_i hlast
      obtain rfl := List.isEmpty_iff.mp hlast
      obtain rfl := hmore.nil
      rw [hmorespan.nil, hgoTo.nil]
      exact .refl _
    · exact h.loaded.walk_goTo hgoTo hlabel
  -- The next comparison follows directly.
  · rw [if_neg hwv, if_neg hwv]
    exact hrest value hlater hlaterspan hmore hmorespan hcomparable.2
      hfrest hlabel hskip hk

end Case.MirroredSeq

mutual

/-- The machine does what a block does. -/
theorem Block.run_mirrored (h : call.Hosted ctx items code) (below : List Word) :
    ∀ b : Block, b.Mirrored ctx call items code below
  | ⟨_, stmts⟩ => .of_stmts h (Stmt.runSeq_mirrored h below stmts)

/-- The machine does what statements do one after the other. -/
theorem Stmt.runSeq_mirrored (h : call.Hosted ctx items code) (below : List Word) :
    ∀ stmts : List Stmt, Stmt.MirroredSeq ctx call items code below stmts
  | [] => .nil
  | s₁ :: rest => .cons h (Stmt.run_mirrored h below s₁) (Stmt.runSeq_mirrored h below rest)

/-- The machine does what a statement does. -/
theorem Stmt.run_mirrored (h : call.Hosted ctx items code) (below : List Word) :
    ∀ s₁ : Stmt, s₁.Mirrored ctx call items code below
  | .expr _ _ => .expr h
  | .assign _ _ _ => .assign h
  | .decl _ _ _ => .decl h
  | .func _ _ _ _ _ => .func h
  | .cond _ _ body => .cond h (Block.run_mirrored h below body)
  | .switch _ _ cases => .switch h (Case.runSeq_mirrored h below cases)
  | .loop _ ⟨_, pre⟩ _ post body => .loop h (Stmt.runSeq_mirrored h below pre)
      (Block.run_mirrored h below body) (Block.run_mirrored h below post)
  | .brk _ => .brk h
  | .cont _ => .cont h
  | .block b => .block (Block.run_mirrored h below b)
  | .label _ _ => .label
  | .stackAssign _ _ => .stackAssign

/-- The machine does what the cases of a switch do, with the subject on top of the frame. -/
theorem Case.runSeq_mirrored (h : call.Hosted ctx items code) (below : List Word) :
    ∀ cases : List Case, Case.MirroredSeq ctx call items code below cases
  | [] => .nil
  | ⟨_, none, body⟩ :: _ => .default (Block.run_mirrored h below body)
  | ⟨_, some _, body⟩ :: rest => .value h (Block.run_mirrored h below body)
      (Case.runSeq_mirrored h below rest)

end

end Statements

section Functions

variable {items : List Item} {code : List UInt8}

theorem FunctionDef.names_frame_perm (f : FunctionDef) :
    ((f.params.reverse ++ f.returns).map (·.name)).Perm f.names :=
  (f.params.reverse_perm.append_right f.returns).map _

/-- The frame of a function at its start: the arguments, the last one lowest, and zeros. -/
theorem FunctionDef.frame_agrees {f : FunctionDef} (hnodup : f.names.Nodup) (t : EntryTable)
    (hidden : List String) {args : List Word} (hargs : args.length = f.params.length) :
    (Site.ofFunction t f.params f.returns).Agrees ⟨t.functions, [f.names], hidden⟩ [f.frame args]
      (args.reverse ++ List.replicate f.returns.length 0) := by
  intro x _ slot hlt hslot
  have hparams : (f.params.map (·.name)).length = args.length := by
    rw [List.length_map, hargs]
  have hreverse : ((f.params.map (·.name)).zip args).reverse
      = (f.params.map (·.name)).reverse.zip args.reverse := List.reverse_zipWith hparams
  -- The values lie in another order than that of the names.
  have hperm : (((f.params.reverse ++ f.returns).map (·.name)).zip
      (args.reverse ++ List.replicate f.returns.length 0)).Perm
        (f.names.zip (args ++ List.replicate f.returns.length 0)) := by
    rw [FunctionDef.names, List.map_append, List.map_append, List.map_reverse,
      List.zip_append (by rw [List.length_reverse, List.length_reverse, hparams]),
      List.zip_append hparams, ← hreverse]
    exact (List.reverse_perm _).append_right _
  have hmem : (x, (args.reverse ++ List.replicate f.returns.length 0)[slot])
      ∈ f.names.zip (args ++ List.replicate f.returns.length 0) := by
    rw [← hperm.mem_iff]
    refine List.mem_of_getElem? (i := slot) (List.getElem?_zip_eq_some.mpr ⟨?_, ?_⟩)
    · rcases List.lookup_eq_some_iff.mp hslot with ⟨before, after, hsplit, -⟩
      have hsplit : ((f.params.reverse ++ f.returns).map (·.name)).zipIdx
        = before ++ (x, slot) :: after := hsplit
      rw [← List.mk_mem_zipIdx_iff_getElem?, hsplit]
      exact List.mem_append_right _ List.mem_cons_self
    · exact List.getElem?_eq_getElem hlt
  have hnames : ((f.names.zip (args ++ List.replicate f.returns.length 0)).map (·.1)).Nodup := by
    rwa [f.map_fst_frame hargs]
  rw [f.frame_eq hargs, Environment.get?_declareAll _ (List.cons_ne_nil _ _),
    lookup_reverse_of_nodup hnames, lookup_of_mem_nodup hnames hmem, List.getElem?_eq_getElem hlt]
  rfl

/-- What is in the slots of the return variables is what the function returns. -/
theorem Site.Agrees.results {f : FunctionDef} (hnodup : f.names.Nodup) {t : EntryTable}
    {hidden : List String} {env : Environment} {row values : List Word}
    (h : (Site.ofFunction t f.params f.returns).Agrees ⟨t.functions, [f.names], hidden⟩ env row)
    (hrow : row.length = f.params.length + f.returns.length)
    (hvalues : List.Forall₂ (fun x w => env.get? x.name = some w) f.returns values) :
    row.drop f.params.length = values := by
  have hlength : (row.drop f.params.length).length = values.length := by
    rw [List.length_drop, hrow, Nat.add_sub_cancel_left, hvalues.length_eq]
  -- Position by position the return variable has both words.
  refine List.ext_getElem hlength fun i hi hi' => ?_
  have hreturn : i < f.returns.length := by
    rw [hvalues.length_eq]
    exact hi'
  have hget : env.get? f.returns[i].name = some values[i] :=
    List.forall₂_iff_get.mp hvalues |>.2 i hreturn hi'
  have hvisible : f.returns[i].name ∈ f.names :=
    List.mem_map_of_mem (List.mem_append_right _ (List.getElem_mem hreturn))
  -- The slot of the variable is behind those of the parameters.
  have hname : ((f.params.reverse ++ f.returns).map (·.name))[f.params.length + i]?
      = some f.returns[i].name := by
    rw [List.getElem?_map, List.getElem?_append_right (by rw [List.length_reverse]; omega),
      List.length_reverse, Nat.add_sub_cancel_left, List.getElem?_eq_getElem hreturn]
    rfl
  have hslot : (Site.ofFunction t f.params f.returns).slots.lookup f.returns[i].name
      = some (f.params.length + i) := by
    rw [← Nat.zero_add (f.params.length + i)]
    exact lookup_zipIdx (f.names_frame_perm.nodup_iff.mpr hnodup) hname
  have hrowget := h f.returns[i].name (by rw [Sight.visible]; simpa using hvisible) _
    (by rw [hrow]; omega) hslot
  rw [hget, ← List.getElem?_drop, List.getElem?_eq_getElem hi] at hrowget
  exact Option.some.inj hrowget

/-- The machine does what calls do. -/
theorem FunctionDef.call_mirrored (ctx : RunContext) (hl : Loaded items code) :
    ∀ depth, Caller.Mirrored ctx.limits ctx.dialect items code (FunctionDef.call ctx depth) := by
  intro depth
  -- By induction on the depth of calls, which both runs share.
  induction depth with
  -- At the depth zero the interpreter stops.
  | zero => exact fun _ _ _ _ _ _ _ _ _ _ _ _ _ _ _ _ _ _ _ _ => Or.inl rfl
  | succ depth ih =>
      intro here outer f entry first last piece hf hplaced hfit hcomparable hcode hspan args
        ret back stack s hargs hret
      have hosted : (FunctionDef.call ctx depth).Hosted ctx items code :=
        ⟨hl, FunctionDef.call_sound ctx depth, FunctionDef.call_lexical ctx depth, ih⟩
      have hmem : f ∈ here.map (·.1) := List.mem_map_of_mem (f := (·.1)) hf
      rcases hfit.1 f hmem with ⟨hidden, hdistinct, hfits⟩
      have hnodup : f.names.Nodup := by
        have hvisible := (List.nodup_append.mp (List.nodup_append.mp hdistinct).1).2.1
        rwa [Sight.visible, List.flatten_singleton] at hvisible
      -- The code is the label, zeros for the return variables, the body, the moves and the jump
      -- back.
      rcases hcode with ⟨inner, moves, hbody, hmoves, rfl⟩
      rcases hspan.cons with ⟨hlabel, hspan⟩
      rcases hspan.append with ⟨_, hspan, hjump⟩
      rcases hspan.append with ⟨_, hspan, hmovesspan⟩
      rcases hspan.append with ⟨_, hzeros, hbodyspan⟩
      rcases hjump.cons with ⟨hjump, -⟩
      -- The body starts in the frame of the function.
      have hk : (Site.ofFunction (here :: outer) f.params f.returns).Framed ctx.dialect items
          ⟨EntryTable.functions (here :: outer), [f.names], hidden⟩
          ({ s with env := [f.frame args] } : RunState).env
          (args.reverse ++ List.replicate f.returns.length 0) := by
        refine ⟨⟨hdistinct, hfit, rfl, hplaced, hcomparable, .ofFunction _ _ _⟩,
          f.frame_holds hargs, ?_,
          FunctionDef.frame_agrees hnodup _ _ hargs⟩
        rw [List.length_append, List.length_reverse, List.length_replicate, hargs]
        rfl
      have hstack : List.replicate f.returns.length 0 ++ (args ++ ret :: stack)
          = (args.reverse ++ List.replicate f.returns.length 0).reverse ++ ret :: stack := by
        rw [List.reverse_append, List.reverse_replicate, List.reverse_reverse, List.append_assoc]
      rw [FunctionDef.call]
      refine .walk (.step hlabel.lt_sizeAll (hl.step_label hlabel) (hl.walk_zeros hzeros)) ?_
      rw [hstack]
      -- The interpreter keeps the environment of the caller, which the machine has on its stack.
      refine Mirrors.bind (P := fun env t c => env = s.env ∧ t = { s with env := [f.frame args] } ∧
        c = ⟨_, _, s.machine⟩) ⟨_, .refl _, rfl, rfl, rfl⟩ ?_
      rintro _ _ _ ⟨rfl, rfl, rfl⟩
      refine ((Block.run_mirrored hosted (ret :: stack) f.body hbody hbodyspan ?_ hfits hk).and
        (Block.run_sound hosted.sound hdistinct hfit hfits hk.holds)).bind ?_
      · exact List.all_eq_true.mp (hcomparable _ List.mem_cons_self f hmem)
      rintro flow t c ⟨harrives, hleft⟩
      -- No jump leaves a body.
      obtain rfl : flow = .next := by
        by_contra hflow
        exact Bool.noConfusion (hleft.leaves hflow)
      rcases harrives with ⟨row, hrow, hagrees, rfl⟩
      have hrow : row.length = f.params.length + f.returns.length := hrow
      rcases Run.results_eq hleft.holds with ⟨values, hvalues, hrun⟩
      -- The results are the words of the return variables.
      obtain rfl := hagrees.results hnodup hrow hvalues
      have hargs : (row.take f.params.length).length = f.params.length := by
        rw [List.length_take, hrow, Nat.min_eq_left (Nat.le_add_right _ _)]
      have hresults : (row.drop f.params.length).length = f.returns.length := by
        rw [List.length_drop, hrow, Nat.add_sub_cancel_left]
      have hrowsplit := List.take_append_drop f.params.length row
      -- The moves leave the results and jump back.
      refine .walk (hrowsplit ▸ (hl.walk_unwind hmoves hargs hresults hmovesspan).trans
        (.one hjump.lt_sizeAll (hl.step_jump hjump hret))) ?_
      refine Mirrors.bind (P := fun env u c => env = t.env ∧ u = { t with env := s.env } ∧
        c = ⟨_, _, t.machine⟩) ⟨_, .refl _, rfl, rfl, rfl⟩ ?_
      rintro _ _ _ ⟨rfl, rfl, rfl⟩
      rw [hrun]
      exact .ok rfl

/-- The machine does what a program does. -/
theorem Block.Coded.mirrored (ctx : RunContext) (hl : Loaded items code) {program : Block}
    (h : program.Coded ctx.dialect .empty items)
    (hcomparable : program.comparable ctx.dialect = true)
    (hfits : program.Fits ctx.dialect .empty false) (depth : Nat) (state : MachineState) :
    Mirrors ctx.limits code (Item.sizeAll items) ⟨0, [], state⟩
      (program.run ctx (FunctionDef.call ctx depth) [] ⟨state, 0, []⟩) fun _ t c =>
        c = ⟨Item.sizeAll items, [], t.machine⟩ := by
  have hosted : (FunctionDef.call ctx depth).Hosted ctx items code :=
    ⟨hl, FunctionDef.call_sound ctx depth, FunctionDef.call_lexical ctx depth,
      FunctionDef.call_mirrored ctx hl depth⟩
  -- The program starts with an empty stack and without variables.
  have hk : Site.empty.Framed ctx.dialect items .empty ([] : Environment) [] :=
    ⟨⟨List.nodup_nil, trivial, rfl, trivial, fun _ h => absurd h List.not_mem_nil, .empty⟩,
      .nil, rfl,
      fun _ hx => absurd hx List.not_mem_nil⟩
  have hrun := Block.run_mirrored hosted [] program (s := ⟨state, 0, []⟩) h (.whole items)
    (List.all_eq_true.mp hcomparable) hfits hk
  have hsound := Block.run_sound hosted.sound hk.suits.distinct hk.suits.fit hfits
    (s := ⟨state, 0, []⟩) hk.holds
  refine (hrun.and hsound).mono ?_
  rintro flow t c ⟨harrives, hleft⟩
  -- No jump leaves a program, and its variables are gone in the end.
  obtain rfl : flow = .next := by
    by_contra hflow
    exact Bool.noConfusion (hleft.leaves hflow)
  rcases harrives with ⟨row, hrow, -, rfl⟩
  obtain rfl := List.length_eq_zero_iff.mp hrow
  exact ⟨_, .refl _, rfl⟩

end Functions

end YulToolchain
