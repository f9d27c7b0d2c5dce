import YulToolchain.Proofs.Execution.Watch
import YulToolchain.Proofs.Static.Analyzed

/-!
# No Jump Is Lost

Every `break` and `continue` that is executed reaches the loop it belongs to.

Along code that is left the notes of a run end with a loop that was left, and whoever
runs that code has to act on it. Only a round of a loop does, and it is about the loop
whose body was run. Everything else passes the notes on as they are, or must not get
any that end that way: the initialisation and the `post` block of a loop, the body of a
function, and the whole program. None of these is left, because the analysis accepts no
`break` there.

There is one exception again: as far as the analysis is concerned, an initialisation
may leave a loop further out, and the interpreter drops that
(`leaving_from_init_is_lost`).

## Main definitions

* `Answered`: Notes in which every loop that is left is acted on at once.
* `Flowed`: The notes of code that goes on in some way.
* `Block.Homed`, `Stmt.Homed`: Every `break` stands in the body of a loop.
* `Noting`: What holds of the notes of a computation.

## Theorems

* `Block.homed_of_fits`: Code that fits has a loop for every `break`.
* `Stmt.watch_flowed`, `Block.watch_flowed`: The notes of statements and blocks.
* `FunctionDef.watchCall_settled`: The notes of calls.
* `jumps_reach_their_loop`: The notes of programs that are read and accepted.
* `leaving_from_init_is_lost`: A program that leaves a loop from an initialisation.
-/

namespace YulToolchain

open Watch

/-- What a loop does whose body is left in some way. -/
def Flow.answer? (depth loop : Nat) : Flow → Option LoopEvent
  | .next => none
  | .brk => some (.ended depth loop)
  | .cont => some (.resumed depth loop)

/-- Notes in which every loop that is left is acted on at once: it ends after a `break`,
    and goes on with its `post` block after a `continue`. -/
inductive Answered : List LoopEvent → Prop where
  | nil : Answered []
  | jump {depth loop : Nat} {flow : Flow} {answer : LoopEvent} {rest : List LoopEvent}
      (h : flow.answer? depth loop = some answer) (hrest : Answered rest) :
      Answered (.left depth (some loop) flow :: answer :: rest)

/-- The notes of code after which control goes on in some way. If it does not go on with
    the next statement, then the last thing noted is that the loop around was left, and
    the code stands where that is allowed. -/
def Flowed (depth : Nat) (around : Option Nat) (inLoop : Bool) (flow : Flow)
    (notes : List LoopEvent) : Prop :=
  match flow with
  | .next => Answered notes
  | flow => inLoop = true ∧ ∃ before loop, around = some loop ∧ Answered before ∧
      notes = before ++ [.left depth (some loop) flow]

mutual

/-- Every `break` and `continue` of a block stands in the body of a loop. -/
def Block.Homed (inLoop : Bool) : Block → Prop
  | ⟨_, stmts⟩ => Stmt.HomedSeq inLoop stmts

/-- Every `break` and `continue` of some statements stands in the body of a loop. -/
def Stmt.HomedSeq (inLoop : Bool) : List Stmt → Prop
  | [] => True
  | s :: rest => s.Homed inLoop ∧ Stmt.HomedSeq inLoop rest

/-- Every `break` and `continue` of a statement stands in the body of a loop, and in no
    initialisation or `post` block of another one inside it. -/
def Stmt.Homed (inLoop : Bool) : Stmt → Prop
  | .func _ _ _ _ body => body.Homed false
  | .cond _ _ body => body.Homed inLoop
  | .switch _ _ cases => Case.HomedSeq inLoop cases
  | .loop _ ⟨_, pre⟩ _ post body =>
    Stmt.HomedSeq false pre ∧ body.Homed true ∧ post.Homed false
  | .brk _ => inLoop = true
  | .cont _ => inLoop = true
  | .block b => b.Homed inLoop
  | .expr _ _ => True
  | .assign _ _ _ => True
  | .decl _ _ _ => True
  | .label _ _ => True
  | .stackAssign _ _ => True

/-- Every `break` and `continue` of some cases stands in the body of a loop. -/
def Case.HomedSeq (inLoop : Bool) : List Case → Prop
  | [] => True
  | ⟨_, _, body⟩ :: rest => body.Homed inLoop ∧ Case.HomedSeq inLoop rest

end

/-- The bodies of functions in sight are left by no `break`. -/
def FunctionScopes.Homed (functions : FunctionScopes) : Prop :=
  ∀ f ∈ functions.flatten, f.body.Homed false

section Text

variable {d : Dialect}

mutual

/-- Jumps of a block that fits are at home. -/
theorem Block.homed_of_fits : ∀ {b : Block} {v : Sight} {inLoop : Bool},
    b.Fits d v inLoop → b.Homed inLoop
  | ⟨_, stmts⟩, v, inLoop, h => by
      rw [Block.Fits] at h
      rw [Block.Homed]
      exact Stmt.homedSeq_of_fits h.2

/-- The same for statements in a row. -/
theorem Stmt.homedSeq_of_fits : ∀ {stmts : List Stmt} {v : Sight} {inLoop : Bool},
    Stmt.FitsSeq d v inLoop stmts → Stmt.HomedSeq inLoop stmts
  | [], _, _, _ => by
      rw [Stmt.HomedSeq]
      trivial
  | s :: rest, v, inLoop, h => by
      rw [Stmt.FitsSeq] at h
      rw [Stmt.HomedSeq]
      exact ⟨Stmt.homed_of_fits h.1, Stmt.homedSeq_of_fits h.2⟩

/-- A statement that fits has a loop for every `break`. -/
theorem Stmt.homed_of_fits : ∀ {s : Stmt} {v : Sight} {inLoop : Bool},
    s.Fits d v inLoop → s.Homed inLoop
  | .func _ _ _ _ body, v, inLoop, h => by
      rw [Stmt.Fits] at h
      rw [Stmt.Homed]
      exact Block.homed_of_fits h.2
  | .cond _ _ body, v, inLoop, h => by
      rw [Stmt.Fits] at h
      rw [Stmt.Homed]
      exact Block.homed_of_fits h.2
  | .switch _ _ cases, v, inLoop, h => by
      rw [Stmt.Fits] at h
      rw [Stmt.Homed]
      exact Case.homedSeq_of_fits h.2
  | .loop _ ⟨_, pre⟩ _ post body, v, inLoop, h => by
      rw [Stmt.Fits] at h
      rw [Stmt.Homed]
      rcases h with ⟨-, hpre, -, hbody, hpost⟩
      exact ⟨Stmt.homedSeq_of_fits hpre, Block.homed_of_fits hbody, Block.homed_of_fits hpost⟩
  | .block b, v, inLoop, h => by
      rw [Stmt.Fits] at h
      rw [Stmt.Homed]
      exact Block.homed_of_fits h
  | .brk _, _, _, h | .cont _, _, _, h => by
      rw [Stmt.Fits] at h
      rw [Stmt.Homed]
      exact h
  | .expr _ _, _, _, _ | .assign _ _ _, _, _, _ | .decl _ _ _, _, _, _ | .label _ _, _, _, _
  | .stackAssign _ _, _, _, _ => by
      rw [Stmt.Homed]
      trivial

/-- The same for cases. -/
theorem Case.homedSeq_of_fits : ∀ {cases : List Case} {v : Sight} {inLoop : Bool}
    {seen : List Word}, Case.FitsSeq d v inLoop seen cases → Case.HomedSeq inLoop cases
  | [], _, _, _, _ => by
      rw [Case.HomedSeq]
      trivial
  | ⟨_, none, body⟩ :: rest, v, inLoop, seen, h => by
      rw [Case.FitsSeq] at h
      obtain rfl := h.2
      rw [Case.HomedSeq, Case.HomedSeq]
      exact ⟨Block.homed_of_fits h.1, trivial⟩
  | ⟨_, some l, body⟩ :: rest, v, inLoop, seen, h => by
      rw [Case.FitsSeq] at h
      rcases h with ⟨w, -, -, hbody, hrest⟩
      rw [Case.HomedSeq]
      exact ⟨Block.homed_of_fits hbody, Case.homedSeq_of_fits hrest⟩

end

/-- Statements that are at home one by one. -/
theorem Stmt.HomedSeq.mem : ∀ {stmts : List Stmt} {inLoop : Bool}, Stmt.HomedSeq inLoop stmts →
    ∀ s ∈ stmts, s.Homed inLoop
  | [], _, _, s, hs => absurd hs List.not_mem_nil
  | first :: rest, inLoop, h, s, hs => by
      rw [Stmt.HomedSeq] at h
      rcases List.mem_cons.mp hs with rfl | hs
      · exact h.1
      · exact Stmt.HomedSeq.mem h.2 s hs

/-- Inside a block there are its functions besides those around it. -/
theorem FunctionScopes.Homed.enter {functions : FunctionScopes} {stmts : List Stmt}
    {inLoop : Bool} (hf : functions.Homed) (h : Stmt.HomedSeq inLoop stmts) (line : Nat) :
    FunctionScopes.Homed ((⟨line, stmts⟩ : Block).functions :: functions) := by
  intro f hmem
  rw [List.flatten_cons, List.mem_append] at hmem
  rcases hmem with hmem | hmem
  · rcases List.mem_filterMap.mp hmem with ⟨s, hs, hfound⟩
    have hhomed := h.mem s hs
    cases s with
    | func line name params returns body =>
        obtain rfl := Option.some.inj hfound
        rwa [Stmt.Homed] at hhomed
    | _ => exact absurd hfound (by rintro ⟨⟩)
  · exact hf f hmem

/-- A function that is found is in the scopes. -/
theorem FunctionScopes.mem_of_find? : ∀ {functions : FunctionScopes} {name : String}
    {f : FunctionDef}, functions.find? name = some f → f ∈ functions.flatten
  | [], _, _, h => absurd h (by rintro ⟨⟩)
  | here :: outer, name, f, h => by
      rw [FunctionScopes.find?] at h
      rw [List.flatten_cons, List.mem_append]
      rcases hhere : findFunction? name here with _ | g
      · rw [hhere] at h
        exact Or.inr (FunctionScopes.mem_of_find? h)
      · rw [hhere, Option.some.injEq] at h
        exact Or.inl (h ▸ List.mem_reverse.mp (List.mem_of_find?_eq_some hhere))

end Text

/-- Notes that are answered, one after the other. -/
theorem Answered.append {notes more : List LoopEvent} (h : Answered notes) (h' : Answered more) :
    Answered (notes ++ more) := by
  induction h with
  | nil => exact h'
  | jump hanswer _ ih => exact .jump hanswer ih

/-- Answered notes in front of a jump. -/
theorem Answered.flowed {depth : Nat} {around : Option Nat} {inLoop : Bool} {flow : Flow}
    {notes more : List LoopEvent} (h : Answered notes) (h' : Flowed depth around inLoop flow more) :
    Flowed depth around inLoop flow (notes ++ more) := by
  cases flow with
  | next => exact h.append h'
  | brk =>
      rcases h' with ⟨hin, before, loop, haround, hbefore, rfl⟩
      exact ⟨hin, notes ++ before, loop, haround, h.append hbefore, (List.append_assoc _ _ _).symm⟩
  | cont =>
      rcases h' with ⟨hin, before, loop, haround, hbefore, rfl⟩
      exact ⟨hin, notes ++ before, loop, haround, h.append hbefore, (List.append_assoc _ _ _).symm⟩

/-- A loop whose body is left acts on it. -/
theorem Flowed.answer {depth loop : Nat} {flow : Flow} {answer : LoopEvent}
    {notes : List LoopEvent} (h : Flowed depth (some loop) true flow notes)
    (hanswer : flow.answer? depth loop = some answer) : Answered (notes ++ [answer]) := by
  cases flow with
  | next => exact absurd hanswer (by rintro ⟨⟩)
  | brk =>
      rcases h with ⟨-, before, _, ⟨⟩, hbefore, rfl⟩
      rw [List.append_assoc]
      exact hbefore.append (.jump hanswer .nil)
  | cont =>
      rcases h with ⟨-, before, _, ⟨⟩, hbefore, rfl⟩
      rw [List.append_assoc]
      exact hbefore.append (.jump hanswer .nil)

/-- The notes that a computation adds: those of a value have a property, and those of a
    halt have another. -/
def Noting {α : Type} (w : Watch α) (E : List LoopEvent → Prop)
    (Q : α → List LoopEvent → Prop) : Prop :=
  ∀ s notes, match w (s, notes) with
    | .ok a (_, notes') => ∃ added, notes' = notes ++ added ∧ Q a added
    | .error _ (_, notes') => ∃ added, notes' = notes ++ added ∧ E added

section Rules

variable {α β : Type} {E : List LoopEvent → Prop} {P P' : α → List LoopEvent → Prop}
  {Q : β → List LoopEvent → Prop}

theorem Noting.pure {a : α} (h : P a []) : Noting (pure a) E P := fun _ notes =>
  ⟨[], (List.append_nil notes).symm, h⟩

/-- Less may be told. -/
theorem Noting.mono {E' : List LoopEvent → Prop} {w : Watch α} (h : Noting w E P)
    (hE : ∀ added, E added → E' added) (hP : ∀ a added, P a added → P' a added) :
    Noting w E' P' := by
  intro s notes
  have hs := h s notes
  cases hr : w (s, notes) with
  | ok a t =>
      rw [hr] at hs
      rcases hs with ⟨added, hadded, hp⟩
      exact ⟨added, hadded, hP a added hp⟩
  | error halt t =>
      rw [hr] at hs
      rcases hs with ⟨added, hadded, he⟩
      exact ⟨added, hadded, hE added he⟩

/-- Notes of two parts. -/
theorem Noting.bind {w : Watch α} {f : α → Watch β} (hw : Noting w E P)
    (hf : ∀ a before, P a before → Noting (f a) (fun added => E (before ++ added))
      fun b added => Q b (before ++ added)) : Noting (w >>= f) E Q := by
  intro s notes
  have hs := hw s notes
  simp only [Bind.bind, EStateM.bind]
  cases hr : w (s, notes) with
  | error halt t =>
      rw [hr] at hs
      exact hs
  -- The first part may end the run, with its own notes.
  | ok a t =>
      rw [hr] at hs
      rcases hs with ⟨before, hbefore, hp⟩
      have ht := hf a before hp t.1 t.2
      dsimp only
      cases hr' : f a t with
      | ok b u =>
          rw [hr'] at ht
          rcases ht with ⟨added, hadded, hq⟩
          exact ⟨before ++ added, by rw [hadded, hbefore, List.append_assoc], hq⟩
      | error halt u =>
          rw [hr'] at ht
          rcases ht with ⟨added, hadded, he⟩
          exact ⟨before ++ added, by rw [hadded, hbefore, List.append_assoc], he⟩

/-- Nothing is noted. -/
theorem Noting.silently {m : Run α} (hE : E []) :
    Noting (silently m) E fun _ added => added = [] := by
  intro s notes
  rw [Watch.silently]
  cases m s with
  | ok a t => exact ⟨[], (List.append_nil notes).symm, rfl⟩
  | error halt t => exact ⟨[], (List.append_nil notes).symm, hE⟩

theorem Noting.note (e : LoopEvent) : Noting (note e) E fun _ added => added = [e] :=
  fun _ _ => ⟨[e], rfl, rfl⟩

/-- Changing variables never halts. -/
theorem Noting.modifyEnv (f : Environment → Environment) :
    Noting (Watch.silently (Run.modifyEnv f)) E fun _ added => added = [] :=
  fun _ notes => ⟨[], (List.append_nil notes).symm, rfl⟩

/-- Something that has no meaning adds nothing. -/
theorem Noting.fault (why : RunFault) {P : α → List LoopEvent → Prop} :
    Noting (Watch.silently (Run.fault why)) Answered P :=
  fun _ notes => ⟨[], (List.append_nil notes).symm, .nil⟩

end Rules

/-- A computation whose notes are settled, whatever comes of it. -/
abbrev Quietly {α : Type} (w : Watch α) : Prop := Noting w Answered fun _ => Answered

section Quiet

variable {α β : Type} {depth : Nat} {around : Option Nat} {inLoop : Bool}

theorem Quietly.pure (a : α) : Quietly (pure a) := Noting.pure .nil

theorem Quietly.silently (m : Run α) : Quietly (silently m) :=
  (Noting.silently .nil).mono (fun _ h => h) fun _ _ h => h ▸ .nil

theorem Quietly.bind {w : Watch α} {f : α → Watch β} (hw : Quietly w)
    (hf : ∀ a, Quietly (f a)) : Quietly (w >>= f) :=
  Noting.bind hw fun a _ hbefore => (hf a).mono (fun _ h => hbefore.append h)
    fun _ _ h => hbefore.append h

/-- Code behind settled notes. -/
theorem Quietly.flow {w : Watch α} {f : α → Watch Flow} (hw : Quietly w)
    (hf : ∀ a, Noting (f a) Answered (Flowed depth around inLoop)) :
    Noting (w >>= f) Answered (Flowed depth around inLoop) :=
  Noting.bind hw fun a _ hbefore => (hf a).mono (fun _ h => hbefore.append h)
    fun _ _ h => hbefore.flowed h

/-- Either way. -/
theorem Noting.ite {p : Prop} [Decidable p] {w w' : Watch α} {E : List LoopEvent → Prop}
    {P : α → List LoopEvent → Prop} (h : Noting w E P) (h' : Noting w' E P) :
    Noting (if p then w else w') E P := by
  split
  · exact h
  · exact h'

/-- Closing a scope adds nothing, also where a loop was left. -/
theorem Noting.inScope {w : Watch α} {P : α → List LoopEvent → Prop} (h : Noting w Answered P) :
    Noting (Watch.inScope w) Answered P := by
  refine (Noting.modifyEnv _).bind ?_
  rintro _ _ rfl
  refine h.bind fun a before hp => (Noting.modifyEnv _).bind ?_
  rintro _ _ rfl
  refine Noting.pure ?_
  rw [List.append_nil, List.append_nil]
  exact hp

/-- A round acts on what its body does. -/
theorem Quietly.round {c : RunContext} {loop : Nat} {test : Watch Word} {body post : Watch Flow}
    (htest : Quietly test) (hbody : Noting body Answered (Flowed depth (some loop) true))
    (hpost : Quietly post) : Quietly (Watch.round c depth loop test body post) := by
  refine (Quietly.silently _).bind fun _ => htest.bind fun value => Noting.ite (.pure .nil) ?_
  refine Noting.bind hbody fun flow before hflow => ?_
  -- Behind the body the post part is run, with all notes answered so far.
  have hgoes : ∀ added, Answered (before ++ added) →
      Noting (do let _ ← post; return true) (fun more => Answered (before ++ (added ++ more)))
        fun _ more => Answered (before ++ (added ++ more)) := by
    intro added hadded
    refine (hpost.bind fun _ => .pure true).mono (fun more h => ?_) fun _ more h => ?_
    · rw [← List.append_assoc]
      exact hadded.append h
    · rw [← List.append_assoc]
      exact hadded.append h
  -- A break or a continue is noted by the body and answered here.
  cases flow with
  | next =>
      have hall := hgoes [] (by rwa [List.append_nil])
      exact hall
  | brk =>
      refine (Noting.note _).bind ?_
      rintro _ _ rfl
      refine Noting.pure ?_
      rw [List.append_nil]
      exact hflow.answer rfl
  | cont =>
      refine (Noting.note _).bind ?_
      rintro _ _ rfl
      exact hgoes _ (hflow.answer rfl)

/-- Quiet rounds. -/
theorem Quietly.rounds {w : Watch Bool} (h : Quietly w) (fuel : Nat) :
    Quietly (Watch.rounds fuel w) := by
  induction fuel with
  | zero => exact Quietly.silently _
  | succ fuel ih =>
      rw [Watch.rounds]
      exact h.bind fun another => Noting.ite ih (Quietly.pure ())

end Quiet

/-- Calls of functions whose bodies are left by no `break` have settled notes. -/
def WatchCaller.Quiet (call : WatchCaller) : Prop :=
  ∀ (functions : FunctionScopes) f args, functions.Homed → f.body.Homed false →
    Quietly (call functions f args)

section Code

variable {c : RunContext} {call : WatchCaller} {functions : FunctionScopes}

mutual

/-- Expressions are quiet, since called functions are. -/
theorem Expr.watch_quietly (hcall : call.Quiet) (hf : functions.Homed) : ∀ e : Expr,
    Quietly (e.watch c call functions)
  | .literal l => by
      rw [Expr.watch]
      exact .silently _
  | .ident line name => by
      rw [Expr.watch]
      exact .silently _
  | .instr line op args => by
      rw [Expr.watch]
      exact (Expr.watchArgs_quietly hcall hf args).bind fun _ => .silently _
  | .call line name args => by
      rw [Expr.watch]
      have hargs : Quietly (Expr.watchArgs c call functions args) :=
        Expr.watchArgs_quietly hcall hf args
      rcases c.dialect.builtin? name with _ | b
      · dsimp only
        rcases hfound : functions.find? name with _ | f
        · exact .silently _
        · have hbody := hf f (FunctionScopes.mem_of_find? hfound)
          -- The function has a body that is at home.
          exact hargs.bind fun values =>
            Noting.ite (hcall functions f values hf hbody) (Quietly.silently _)
      · dsimp only
        rcases b.code with op | _ | _ | _ | _
        · exact hargs.bind fun _ => .silently _
        · exact .silently _
        · exact .silently _
        · exact hargs.bind fun _ => .silently _
        · exact .pure _

/-- Arguments are quiet. -/
theorem Expr.watchArgs_quietly (hcall : call.Quiet) (hf : functions.Homed) :
    ∀ args : List Expr, Quietly (Expr.watchArgs c call functions args)
  | [] => by
      rw [Expr.watchArgs]
      exact .pure _
  | e :: rest => by
      rw [Expr.watchArgs]
      exact (Expr.watchArgs_quietly hcall hf rest).bind fun _ =>
        (Expr.watch_quietly hcall hf e).bind fun _ => (Quietly.silently _).bind fun _ => .pure _

end

theorem Expr.watchSingle_quietly (hcall : call.Quiet) (hf : functions.Homed) (e : Expr) :
    Quietly (e.watchSingle c call functions) :=
  (Expr.watch_quietly hcall hf e).bind fun _ => .silently _

/-- Where no loop may be left all notes are settled. -/
theorem Flowed.settled {depth : Nat} {around : Option Nat} {flow : Flow}
    {notes : List LoopEvent} (h : Flowed depth around false flow notes) : Answered notes := by
  cases flow with
  | next => exact h
  | brk => exact absurd h.1 Bool.noConfusion
  | cont => exact absurd h.1 Bool.noConfusion

theorem Noting.quietly {depth : Nat} {around : Option Nat} {w : Watch Flow}
    (h : Noting w Answered (Flowed depth around false)) : Quietly w :=
  h.mono (fun _ hadded => hadded) fun _ _ hadded => hadded.settled

mutual

/-- The notes of a block. -/
theorem Block.watch_flowed (hcall : call.Quiet) (depth : Nat) : ∀ (b : Block)
    {functions : FunctionScopes} (around : Option Nat) {inLoop : Bool} (id : Nat),
      functions.Homed → b.Homed inLoop → (inLoop = true → around.isSome = true) →
      Noting (b.watch c call depth functions around id) Answered (Flowed depth around inLoop)
  | ⟨line, stmts⟩, functions, around, inLoop, id, hf, hb, haround => by
      rw [Block.Homed] at hb
      rw [Block.watch]
      exact (Stmt.watchSeq_flowed hcall depth stmts around _ (hf.enter hb line) hb haround).inScope

/-- Statements in a row note what the first of them notes, and the rest if it falls through. -/
theorem Stmt.watchSeq_flowed (hcall : call.Quiet) (depth : Nat) : ∀ (stmts : List Stmt)
    {functions : FunctionScopes} (around : Option Nat) {inLoop : Bool} (next : Nat),
      functions.Homed → Stmt.HomedSeq inLoop stmts → (inLoop = true → around.isSome = true) →
      Noting (Stmt.watchSeq c call depth functions around next stmts) Answered
        (Flowed depth around inLoop)
  | [], functions, around, inLoop, next, _, _, _ => by
      rw [Stmt.watchSeq]
      exact Noting.pure .nil
  | s :: rest, functions, around, inLoop, next, hf, h, haround => by
      rw [Stmt.HomedSeq] at h
      rw [Stmt.watchSeq]
      refine (Stmt.watch_flowed hcall depth s around next hf h.1 haround).bind
        fun flow before hflow => ?_
      cases flow with
      | next =>
          exact (Stmt.watchSeq_flowed hcall depth rest around _ hf h.2 haround).mono
            (fun _ hadded => Answered.append hflow hadded) fun _ _ hadded =>
              Answered.flowed hflow hadded
      | brk => exact Noting.pure (by rwa [List.append_nil])
      | cont => exact Noting.pure (by rwa [List.append_nil])

/-- The notes of a statement. -/
theorem Stmt.watch_flowed (hcall : call.Quiet) (depth : Nat) : ∀ (s : Stmt)
    {functions : FunctionScopes} (around : Option Nat) {inLoop : Bool} (next : Nat),
      functions.Homed → s.Homed inLoop → (inLoop = true → around.isSome = true) →
      Noting (s.watch c call depth functions around next) Answered (Flowed depth around inLoop)
  | .expr line e, functions, around, inLoop, next, hf, _, _ => by
      rw [Stmt.watch]
      exact (Quietly.silently _).flow fun _ => (Expr.watch_quietly hcall hf e).flow fun _ =>
        Noting.ite (Noting.pure .nil) (Noting.fault _)
  | .assign line targets value, functions, around, inLoop, next, hf, _, _ => by
      rw [Stmt.watch]
      exact (Quietly.silently _).flow fun _ => (Expr.watch_quietly hcall hf value).flow fun _ =>
        Noting.ite ((Quietly.silently _).flow fun _ => Noting.pure .nil) (Noting.fault _)
  | .decl line vars value, functions, around, inLoop, next, hf, _, _ => by
      rw [Stmt.watch]
      refine (Quietly.silently _).flow fun _ => ?_
      -- What comes behind the value, or behind the zeros.
      have hrest : ∀ values : List Word, Noting
          (if values.length = vars.length then do
            Watch.silently
              (Run.modifyEnv (Environment.declareAll ((vars.map (·.name)).zip values)))
            return .next
          else Watch.silently (Run.fault (.declarationCount line)))
          Answered (Flowed depth around inLoop) := fun values =>
        Noting.ite ((Quietly.silently _).flow fun _ => Noting.pure .nil) (Noting.fault _)
      cases value with
      | none => exact (Quietly.pure _).flow hrest
      | some e => exact (Expr.watch_quietly hcall hf e).flow hrest
  | .func line name params returns body, functions, around, inLoop, next, _, _, _ => by
      rw [Stmt.watch]
      exact (Quietly.silently _).flow fun _ => Noting.pure .nil
  | .cond line test body, functions, around, inLoop, next, hf, h, haround => by
      rw [Stmt.Homed] at h
      rw [Stmt.watch]
      exact (Quietly.silently _).flow fun _ =>
        (Expr.watchSingle_quietly hcall hf test).flow fun _ =>
          Noting.ite (Noting.pure .nil)
            (Block.watch_flowed hcall depth body around next hf h haround)
  | .switch line subject cases, functions, around, inLoop, next, hf, h, haround => by
      rw [Stmt.Homed] at h
      rw [Stmt.watch]
      exact (Quietly.silently _).flow fun _ =>
        (Expr.watchSingle_quietly hcall hf subject).flow fun value =>
          Case.watchSeq_flowed hcall depth value cases around next hf h haround
  | .loop line ⟨preLine, pre⟩ test post body, functions, around, inLoop, next, hf, h, _ => by
      rw [Stmt.Homed] at h
      rcases h with ⟨hpre, hbody, hpost⟩
      have hf' := hf.enter hpre preLine
      rw [Stmt.watch]
      -- Neither the initialisation nor the other block is left, whatever stands around.
      have hstays : false = true → around.isSome = true := fun hc => absurd hc Bool.noConfusion
      have hinit := (Stmt.watchSeq_flowed hcall depth pre around (next + 1) hf' hpre hstays).quietly
      -- The body is the only part that jumps within this loop.
      have hround := Quietly.round (c := c) (Expr.watchSingle_quietly (c := c) hcall hf' test)
        (Block.watch_flowed hcall depth body (some next) (next + 1 + Stmt.scopeCountSeq pre) hf'
          hbody fun _ => rfl)
        (Block.watch_flowed hcall depth post around
          (next + 1 + Stmt.scopeCountSeq pre + body.scopeCount) hf' hpost hstays).quietly
      refine (Quietly.silently _).flow fun _ => Quietly.flow ?_ fun _ => Noting.pure .nil
      exact (hinit.bind fun _ => hround.rounds _).inScope
  | .brk line, functions, around, inLoop, next, _, h, haround => by
      rw [Stmt.Homed] at h
      rw [Stmt.watch]
      -- The note tells the loop around.
      refine (Quietly.silently _).flow fun _ => (Noting.note _).bind ?_
      rintro _ _ rfl
      rcases Option.isSome_iff_exists.mp (haround h) with ⟨loop, rfl⟩
      exact Noting.pure ⟨h, [], loop, rfl, .nil, rfl⟩
  | .cont line, functions, around, inLoop, next, _, h, haround => by
      rw [Stmt.Homed] at h
      rw [Stmt.watch]
      refine (Quietly.silently _).flow fun _ => (Noting.note _).bind ?_
      rintro _ _ rfl
      rcases Option.isSome_iff_exists.mp (haround h) with ⟨loop, rfl⟩
      exact Noting.pure ⟨h, [], loop, rfl, .nil, rfl⟩
  | .block b, functions, around, inLoop, next, hf, h, haround => by
      rw [Stmt.Homed] at h
      rw [Stmt.watch]
      exact (Quietly.silently _).flow fun _ =>
        Block.watch_flowed hcall depth b around next hf h haround
  | .label line name, functions, around, inLoop, next, _, _, _ => by
      rw [Stmt.watch]
      exact (Quietly.silently _).flow fun _ => Noting.fault _
  | .stackAssign line target, functions, around, inLoop, next, _, _, _ => by
      rw [Stmt.watch]
      exact (Quietly.silently _).flow fun _ => Noting.fault _

/-- The case that is run. -/
theorem Case.watchSeq_flowed (hcall : call.Quiet) (depth : Nat) (value : Word) :
    ∀ (cases : List Case) {functions : FunctionScopes} (around : Option Nat) {inLoop : Bool}
      (next : Nat), functions.Homed → Case.HomedSeq inLoop cases →
      (inLoop = true → around.isSome = true) →
      Noting (Case.watchSeq c call depth functions around next value cases) Answered
        (Flowed depth around inLoop)
  | [], functions, around, inLoop, next, _, _, _ => by
      rw [Case.watchSeq]
      exact Noting.pure .nil
  | ⟨_, none, body⟩ :: rest, functions, around, inLoop, next, hf, h, haround => by
      rw [Case.HomedSeq] at h
      rw [Case.watchSeq]
      exact Block.watch_flowed hcall depth body around next hf h.1 haround
  | ⟨_, some l, body⟩ :: rest, functions, around, inLoop, next, hf, h, haround => by
      rw [Case.HomedSeq] at h
      rw [Case.watchSeq]
      exact (Quietly.silently _).flow fun _ =>
        Noting.ite (Block.watch_flowed hcall depth body around next hf h.1 haround)
          (Case.watchSeq_flowed hcall depth value rest around _ hf h.2 haround)

end

/-- Calls act on every loop that is left during them. -/
theorem FunctionDef.watchCall_settled (c : RunContext) : ∀ depth : Nat,
    (FunctionDef.watchCall c depth).Quiet
  | 0, functions, f, args, _, _ => Quietly.silently _
  | depth + 1, functions, f, args, hf, hbody => by
      rw [FunctionDef.watchCall]
      have hrun := Block.watch_flowed (c := c) (FunctionDef.watchCall_settled c depth) depth f.body
        none 0 hf hbody fun hc => absurd hc Bool.noConfusion
      exact (Quietly.silently _).bind fun _ => hrun.quietly.bind fun _ =>
        (Quietly.silently _).bind fun _ => .silently _

end Code

/-- In every run of a program that is read and accepted each `break` and `continue` that
    is executed is at once acted on by the loop it stands in: a `break` ends the loop, and
    a `continue` makes it go on with its `post` block. This holds if no loop is left from
    an initialisation. -/
theorem jumps_reach_their_loop {d : Dialect} (hd : d.flavour ≠ .loose) {source : String}
    {code : Block} {scopes : Scopes} (hread : Reads d source code)
    (haccept : analyze d code = .ok scopes) (hstay : code.initsStay = true) (limits : Limits)
    (calldata : List UInt8) :
    ∃ notes, watch d limits calldata code = (interpret d limits calldata code, notes) ∧
      Answered notes := by
  have hfits := analyze_fits hd (hread.readable hd) hstay haccept
  have hnone : FunctionScopes.Homed [] := fun f hmem => absurd hmem List.not_mem_nil
  have hquiet := (Block.watch_flowed (c := ⟨d, limits, true⟩)
    (FunctionDef.watchCall_settled ⟨d, limits, true⟩ limits.maxSteps) limits.maxSteps code none 0
    hnone (Block.homed_of_fits hfits) fun hc => absurd hc Bool.noConfusion).quietly
    ⟨.initial calldata, 0, []⟩ []
  refine ⟨(watch d limits calldata code).2, Prod.ext (watch_eq d limits calldata code) rfl, ?_⟩
  simp only [watch]
  split <;> rename_i hr <;> rw [hr] at hquiet <;> rcases hquiet with ⟨added, rfl, hsettled⟩ <;>
    exact hsettled

/-- A `break` in a loop inside an initialisation, and a `continue` in a function that is
    called from a loop. -/
theorem jumps_reach_their_loop_nested :
    ∃ code scopes, parseBlock .strictAssembly
        "{ function f(n) { for {} n { n := 0 } { continue } }
          for { let i for {} 1 {} { break } } lt(i, 2) { i := add(i, 1) } { f(i) } }"
          = .ok code ∧
      analyze .strictAssembly code = .ok scopes ∧ code.initsStay = true ∧
      ∃ notes, watch .strictAssembly .standard [] code
          = (interpret .strictAssembly .standard [] code, notes) ∧ Answered notes := by
  refine exists_of_accepted? Block.initsStay (by decide +kernel)
    fun code scopes hread haccept hstay => ⟨hstay, ?_⟩
  exact jumps_reach_their_loop (by decide) (.inl hread) haccept hstay .standard []

/-- A `break` in an initialisation is accepted if there is a loop further out. When it is
    executed no loop acts on it: the inner loop is entered and its body stops the program,
    though the outer loop ought to have ended. -/
theorem leaving_from_init_is_lost :
    ∃ code scopes, parseBlock .strictAssembly
        "{ for {} 1 {} { for { break } 1 {} { stop() } } }" = .ok code ∧
      analyze .strictAssembly code = .ok scopes ∧
      (watch .strictAssembly ⟨100, 0x100000⟩ [] code).2 = [.left 100 (some 1) .brk] ∧
      ¬ Answered (watch .strictAssembly ⟨100, 0x100000⟩ [] code).2 := by
  refine exists_of_accepted? (fun code =>
    (watch .strictAssembly ⟨100, 0x100000⟩ [] code).2 = [.left 100 (some 1) .brk])
    (by decide +kernel) fun code _ _ _ htest => ?_
  have hnotes := of_decide_eq_true htest
  refine ⟨hnotes, ?_⟩
  rw [hnotes]
  rintro ⟨⟩

end YulToolchain
