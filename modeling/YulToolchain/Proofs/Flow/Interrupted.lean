import YulToolchain.Proofs.Flow.Course
import YulToolchain.Proofs.Flow.Hooks

/-!
# Walks on the Way

What has become of a program in the middle of a walk.

A walk changes nothing of its own accord. What the code looks like when a pass is called can
therefore be seen from a walk in which the pass, from that call on, leaves everything as it
is: what was walked before has been changed by then, and what would be walked later is as it
was. A pass is interrupted after a number of calls, and the call that it does not answer any
more is kept.

If no call is kept, then the pass has answered all of them, and the walk has done what it does
with a pass that is not interrupted. This is shown for courses. Those of the two passes
differ only in where they turn to the pass, and as a call that is kept is never given up,
all answers were given by the pass.

## Main definitions

* `Interrupted`, `Policy.interrupted`: A pass that answers a number of calls and no more.
* `Flow.runFor`: What a program and a pass have become after a number of calls.
* `Course.Answers`: Two courses differ only in that one may be interrupted.

## Theorems

* `Course.Does.answered`: A walk without a pending call is not interrupted.
* `Flow.runFor_answered`: If no call is pending, the program was walked to its end.
-/

namespace YulToolchain

/-- A pass that is interrupted: it answers a number of calls and no more. -/
structure Interrupted (σ : Type) where
  /-- The state of the pass. -/
  own : σ
  /-- The number of calls that are still answered. -/
  left : Nat
  /-- The first call that was not answered. -/
  pending : Option HookCall

/-- Answers a call, or leaves what is shown the same if no more calls are answered. -/
def Interrupted.answer {σ α : Type} (st : Interrupted σ) (call : HookCall) (same : α)
    (f : σ → α × σ) : α × Interrupted σ :=
  match st.left with
  | 0 => (same, { st with pending := st.pending <|> some call })
  | left + 1 => ((f st.own).1, { st with own := (f st.own).2, left })

/-- A pass that changes nothing any more once it is interrupted. -/
def Policy.interrupted {σ : Type} (p : Policy σ) : Policy (Interrupted σ) where
  enter k e st := st.answer ⟨.enter e, k⟩ e (p.enter k e)
  leave k e st := st.answer ⟨.leave e, k⟩ e (p.leave k e)
  replace k s st := st.answer ⟨.replace s, k⟩ none (p.replace k s)

/-- What a program and a pass have become when the pass has answered a number of calls. The walk
    changes nothing of its own accord, so what is walked afterwards is as it was. -/
def Flow.runFor {σ : Type} (d : Dialect) (p : Policy σ) (n : Nat) (own : σ) (code : Block) :
    Block × Interrupted σ :=
  run d p.interrupted ⟨own, n, none⟩ code

open Course

section Answers

variable {σ : Type}

/-- One course is another one that may be interrupted: where no call is pending afterwards, they
    are given the same answers. -/
inductive Course.Answers : {α : Type} → Course (Interrupted σ) α → Course σ α → Prop where
  | turn {α : Type} {f : Known → Interrupted σ → Option (α × Interrupted σ)}
      {g : Known → σ → Option (α × σ)}
      (h : ∀ k st a st', f k st = some (a, st') → st'.pending = none →
        st.pending = none ∧ g k st.own = some (a, st'.own)) : Answers (.turn f) (.turn g)
  | change (c : Change) : Answers (.change c) (.change c)
  | apart {α : Type} (names : List String) {m : Course (Interrupted σ) α} {n : Course σ α}
      (inner : Answers m n) : Answers (.apart names m) (.apart names n)
  | task {α : Type} (t : Task α) : Answers (.task t) (.task t)
  | bind {α β : Type} {m : Course (Interrupted σ) α} {n : Course σ α}
      {f : α → Course (Interrupted σ) β} {g : α → Course σ β} (first : Answers m n)
      (next : ∀ a, Answers (f a) (g a)) : Answers (.bind m f) (.bind n g)

/-- An answer with nothing pending behind it was the answer of the policy itself. -/
theorem Interrupted.answer_eq {α : Type} {st st' : Interrupted σ} {call : HookCall} {same a : α}
    {f : σ → α × σ} (h : st.answer call same f = (a, st')) (hpending : st'.pending = none) :
    st.pending = none ∧ f st.own = (a, st'.own) := by
  rcases st with ⟨own, left, pending⟩
  cases left with
  | zero =>
      -- A call that is not answered is pending from then on.
      obtain ⟨-, rfl⟩ := Prod.mk.inj h
      cases pending with
      | none => exact absurd hpending (by rintro ⟨⟩)
      | some earlier => exact absurd hpending (by rintro ⟨⟩)
  | succ left =>
      obtain ⟨rfl, rfl⟩ := Prod.mk.inj h
      exact ⟨hpending, rfl⟩

variable {α β : Type} {d : Dialect} {p : Policy σ}

namespace Course.Answers

theorem pure (a : α) : Answers (Pure.pure a : Course (Interrupted σ) α) (Pure.pure a) := by
  refine .turn ?_
  rintro k st _ _ ⟨⟩ hpending
  exact ⟨hpending, rfl⟩

theorem map {m : Course (Interrupted σ) α} {n : Course σ α} (f : α → β) (h : Answers m n) :
    Answers (f <$> m) (f <$> n) := .bind h fun a => .pure (f a)

/-- A hook that is interrupted answers the hook, under any map of the result. -/
theorem answer {f : Known → σ → α × σ} (call : Known → HookCall) (same : α) (g : α → β) :
    Answers (.turn fun k st => some ((Interrupted.answer st (call k) same (f k)).map g id))
      (.turn fun k own => some ((f k own).map g id)) := by
  refine .turn fun k st b st' h hpending => ?_
  obtain ⟨rfl, rfl⟩ := Prod.mk.inj (Option.some.inj h)
  rcases Interrupted.answer_eq rfl hpending with ⟨hnone, hf⟩
  exact ⟨hnone, congrArg (fun r => some (Prod.map g id r)) hf⟩

/-- The effect of an evaluated expression answers itself. -/
theorem evaluated (e : Expr) : Answers (σ := σ) (Course.evaluated d e) (Course.evaluated d e) := by
  unfold Course.evaluated
  split
  · exact .change _
  · exact .pure ()

theorem root (e : Expr) : Answers (σ := σ) (Course.root d e) (Course.root d e) :=
  .bind (.task _) fun e => .bind (.evaluated e) fun _ => .pure e

/-- Visiting the arguments answers itself. -/
theorem arguments (e : Expr) : Answers (σ := σ) (Course.arguments d e) (Course.arguments d e) := by
  cases e with
  | literal l => exact .pure _
  | ident line name => exact .pure _
  | instr line op es => exact .map _ (.task _)
  | call line name es =>
      rw [Course.arguments, Course.arguments]
      split
      · exact .pure _
      · exact .map _ (.task _)

end Course.Answers

/-- The tasks of the interrupted policy answer those of the policy, one part after the other. -/
theorem Task.course_answers : ∀ {α : Type} (t : Task α),
    Answers (t.course d p.interrupted.companion) (t.course d p.companion)
  | _, .expr e => .bind (.answer (⟨.enter e, ·⟩) e id) fun e => .bind (.arguments e) fun e =>
      .answer (⟨.leave e, ·⟩) e id
  | _, .args [] => .pure []
  | _, .args (_ :: _) => .bind (.task _) fun _ => .bind (.task _) fun _ => .pure _
  | _, .block ⟨_, _⟩ => .bind (.change _) fun _ => .bind (.task _) fun _ =>
      .bind (.change _) fun _ => .pure _
  | _, .stmts [] => .pure []
  | _, .stmts (s :: rest) => by
      -- The hook of the statement may answer with other statements, which are then not visited.
      refine .bind (.answer (f := (p.replace · s)) (⟨.replace s, ·⟩) none
        (Option.elim · (Sum.inr s) Sum.inl)) fun r => ?_
      cases r with
      | inl replacement => exact .task _
      | inr s => exact .bind (.task _) fun _ => .bind (.task _) fun _ => .pure _
  | _, .stmt (.expr _ e) => .bind (.root e) fun _ => .pure _
  | _, .stmt (.assign _ _ value) => .bind (.root value) fun _ => .bind (.change _) fun _ => .pure _
  | _, .stmt (.decl line vars value) => by
      refine .bind ?_ fun value => .bind (.change _) fun _ => .bind (.change _) fun _ => .pure _
      cases value with
      | none => exact .pure none
      | some value => exact .map some (.root value)
  | _, .stmt (.func _ _ _ _ _) => .bind (.apart _ (.task _)) fun _ => .pure _
  | _, .stmt (.cond _ test _) => .bind (.root test) fun _ => .bind (.task _) fun _ =>
      .bind (.change _) fun _ => .pure _
  | _, .stmt (.switch _ subject _) => .bind (.root subject) fun _ => .bind (.task _) fun _ =>
      .pure _
  | _, .stmt (.loop _ ⟨_, _⟩ test _ _) => .bind (.change _) fun _ => .bind (.task _) fun _ =>
      .bind (.change _) fun _ => .bind (.root test) fun _ => .bind (.task _) fun _ =>
      .bind (.change _) fun _ => .bind (.task _) fun _ => .bind (.change _) fun _ =>
      .bind (.change _) fun _ => .pure _
  | _, .stmt (.block _) => .bind (.task _) fun _ => .pure _
  | _, .stmt (.label _ _) => .bind (.change _) fun _ => .pure _
  | _, .stmt (.stackAssign _ _) => .bind (.change _) fun _ => .pure _
  | _, .stmt (.brk _) => .pure _
  | _, .stmt (.cont _) => .pure _
  | _, .cases [] => .pure []
  | _, .cases (⟨_, _, _⟩ :: _) => .bind (.task _) fun _ => .bind (.change _) fun _ =>
      .bind (.task _) fun _ => .pure _

/-- A walk state without what is kept for an interruption. -/
def WalkState.answered (st : WalkState (Interrupted σ)) : WalkState σ :=
  ⟨st.slate, st.scopes, st.own.own⟩

/-- A change leaves the own state of the policy alone. -/
theorem Change.apply_own {τ : Type} (d : Dialect) (st : WalkState τ) (c : Change) :
    (c.apply d st).own = st.own := by
  cases c with
  | closes | declares =>
      rw [Change.apply]
      split <;> rfl
  | _ => rfl

theorem Change.apply_answered (d : Dialect) (st : WalkState (Interrupted σ)) (c : Change) :
    (c.apply d st).answered = c.apply d st.answered := by
  rcases st with ⟨slate, _ | ⟨names, outer⟩, own⟩ <;> cases c <;> rfl

/-- A walk behind which no call is pending is the walk of the pass that is not interrupted. -/
theorem Course.Does.answered {m : Course (Interrupted σ) α} {st st' : WalkState (Interrupted σ)}
    {a : α} (h : Does d p.interrupted.companion False m st a st') :
    ∀ {n : Course σ α}, Answers m n → st'.own.pending = none →
      st.own.pending = none ∧ Does d p.companion False n st.answered a st'.answered := by
  induction h with
  | turn hturn =>
      intro n hanswers hpending
      cases hanswers with
      -- With nothing pending the hook was asked and answered.
      | turn hsame =>
          rcases hsame _ _ _ _ hturn hpending with ⟨hnone, hg⟩
          exact ⟨hnone, .turn hg⟩
  | change c st =>
      intro n hanswers hpending
      cases hanswers with
      | change =>
          rw [Change.apply_own] at hpending
          exact ⟨hpending, Change.apply_answered d st c ▸ .change c st.answered⟩
  | apart inner ih =>
      -- The state set aside for the body is answered as well.
      rename_i names _ st st' _
      intro n hanswers hpending
      cases hanswers with
      | apart _ hinner =>
          rcases ih hinner hpending with ⟨hnone, hdoes⟩
          have hinside : Does d p.companion False _ (st.answered.inside names) _ st'.answered :=
            hdoes
          exact ⟨hnone, .apart hinside⟩
  | task whole ih =>
      intro n hanswers hpending
      cases hanswers with
      | task =>
          rcases ih (Task.course_answers _) hpending with ⟨hnone, hdoes⟩
          exact ⟨hnone, .task hdoes⟩
  | cut hcut => exact hcut.elim
  | bind first next ihfirst ihnext =>
      intro n hanswers hpending
      cases hanswers with
      | bind hfirst hnext =>
          -- The second part says that no call was pending behind the first one.
          rcases ihnext (hnext _) hpending with ⟨hbetween, hsecond⟩
          rcases ihfirst hfirst hbetween with ⟨hnone, hdoes⟩
          exact ⟨hnone, .bind hdoes hsecond⟩

/-- An interrupted pass makes no more work than the pass. -/
theorem Policy.Light.interrupted (hp : p.Light) : p.interrupted.Light := by
  refine ⟨fun k e st => ?_, fun k s st stmts h => ?_⟩
  · rcases st with ⟨own, left, pending⟩
    cases left with
    | zero => exact .inl ⟨Nat.le_refl _, List.Subset.refl _⟩
    | succ left => exact hp.enter k e own
  · rcases st with ⟨own, left, pending⟩
    cases left with
    | zero => exact absurd h (by rintro ⟨⟩)
    | succ left => exact hp.replace k s own stmts h

/-- If no call is pending, all were answered, and the program was walked to its end. -/
theorem Flow.runFor_answered (hp : p.Light) {n : Nat} {own : σ} {code code' : Block}
    {st : Interrupted σ} (hrun : runFor d p n own code = (code', st))
    (hpending : st.pending = none) : run d p own code = (code', st.own) := by
  rcases run_tracks (d := d) (.inr hp.interrupted) ⟨own, n, none⟩ code with ⟨w, hdoes, hw⟩
  rw [← runFor, hrun] at hdoes hw
  rcases run_tracks (d := d) (.inr hp) own code with ⟨w', hdoes', hw'⟩
  have hwhole := (hdoes.answered (.task _) (by rw [hw]; exact hpending)).2
  rcases hwhole.unique hdoes' with ⟨hcode, rfl⟩
  have hown : (run d p own code).2 = st.own := hw'.symm.trans (congrArg Interrupted.own hw)
  exact Prod.ext hcode hown

end Answers

end YulToolchain
