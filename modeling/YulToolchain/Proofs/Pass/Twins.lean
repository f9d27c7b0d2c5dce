import YulToolchain.Proofs.Pass.Shape

/-!
# Functions and What They Became

Which function of the new code stands for which function of the old one.

A call names a function, and what the name stands for depends on the place of the
call. What the body of the function does depends on the place of its definition. So
the functions in sight in the old and in the new code have to be compared together
with their places. `FunctionScopes.Matched` does so for all functions in sight, and goes
along when blocks are entered and when the bodies of functions are.

A `Sight.Twins` is a pair of places, in the old and in the new code, with everything
that is needed to follow runs from there.

## Main definitions

* `FunctionDef.Counterpart`: One function became another one.
* `FunctionScopes.Matched`: Each function in sight has a counterpart.
* `Sight.Twins`: Places in the old and in the new code.

## Theorems

* `FunctionScopes.Matched.site`: The functions in sight from the body of a function.
* `Stmt.BecomesSeq.counterparts`: The functions of some statements have counterparts.
* `Sight.Twins.enter`, `Sight.Twins.splice`, `Sight.Twins.after`: Going along with the
  code.
* `FunctionDef.Counterpart.twins`: The bodies of functions.
-/

namespace YulToolchain

namespace FunctionScopes

/-- The scopes around a definition are the last ones of those in sight. -/
theorem site_suffix (name : String) : ∀ fs : FunctionScopes, ∃ inner, fs = inner ++ fs.site name
  | [] => ⟨[], rfl⟩
  | fs :: outer => by
      rw [site]
      split
      · exact ⟨[], rfl⟩
      · rcases site_suffix name outer with ⟨inner, hinner⟩
        exact ⟨fs :: inner, congrArg (fs :: ·) hinner⟩

/-- The scopes around a definition lie within those in sight. -/
theorem site_within {fs : FunctionScopes} (hnodup : (fs.flatten.map (·.name)).Nodup)
    (name : String) : (fs.site name).Within fs := by
  rcases site_suffix name fs with ⟨inner, hinner⟩
  have hwithin : (fs.site name).Within (inner ++ fs.site name) := Within.append (hinner ▸ hnodup)
  rw [← hinner] at hwithin
  exact hwithin

/-- The scopes around a definition fit. -/
theorem Fit.site {d : Dialect} {fs : FunctionScopes} (h : fs.Fit d) (name : String) :
    (fs.site name).Fit d := by
  rcases site_suffix name fs with ⟨inner, hinner⟩
  rw [hinner] at h
  exact h.suffix

/-- Where a function is defined does not depend on from where it is seen. -/
theorem site_append {name : String} {outer : FunctionScopes} :
    ∀ {inner : FunctionScopes}, name ∉ inner.flatten.map (·.name) →
      FunctionScopes.site name (inner ++ outer) = outer.site name
  | [], _ => rfl
  | fs :: inner, h => by
      rw [List.flatten_cons, List.map_append, List.mem_append, not_or] at h
      rw [List.cons_append, site, findFunction?_eq_none h.1]
      exact site_append h.2

/-- Around a definition found there the scopes are the same. -/
theorem site_site {fs : FunctionScopes} (hnodup : (fs.flatten.map (·.name)).Nodup)
    {name name' : String} {g : FunctionDef} (h : (fs.site name).find? name' = some g) :
    (fs.site name).site name' = fs.site name' := by
  rcases site_suffix name fs with ⟨inner, hinner⟩
  rw [hinner, List.flatten_append, List.map_append, List.nodup_append] at hnodup
  have hmem : name' ∈ (fs.site name).flatten.map (·.name) :=
    Sight.mem_functionNames (v := ⟨fs.site name, [], []⟩) h
  have hout : FunctionScopes.site name' (inner ++ fs.site name) = (fs.site name).site name' :=
    site_append fun hin => hnodup.2.2 name' hin name' hmem rfl
  rw [← hinner] at hout
  exact hout.symm

end FunctionScopes

/-- One function became another one, given the blocks around their definitions. -/
structure FunctionDef.Counterpart (c : RunContext) (U : String → Prop) (r : Liberty)
    (fs fs' : FunctionScopes) (f f' : FunctionDef) : Prop where
  header : f'.header = f.header
  body : f.body.Becomes (.running c U r) .nothing f'.body
  sights : ∃ hidden hidden', (⟨fs, [f.names], hidden⟩ : Sight).Distinct ∧
    f.body.Fits c.dialect ⟨fs, [f.names], hidden⟩ false ∧
    (⟨fs', [f.names], hidden'⟩ : Sight).Distinct ∧
    Sight.Widens U ⟨fs, [f.names], hidden⟩ ⟨fs', [f.names], hidden'⟩ f'.body.declared

/-- Each function in sight has a counterpart. -/
def FunctionScopes.Matched (c : RunContext) (U : String → Prop) (r : Liberty)
    (fs fs' : FunctionScopes) : Prop :=
  ∀ name f, fs.find? name = some f → ∃ f', fs'.find? name = some f' ∧
    f.Counterpart c U r (fs.site name) (fs'.site name) f'

section Sights

open Sight

variable {c : RunContext} {U : String → Prop} {r : Liberty}

/-- The functions in sight from the body of a function have counterparts in sight from
    the body of its counterpart. -/
theorem FunctionScopes.Matched.site {fs fs' : FunctionScopes} (h : fs.Matched c U r fs')
    (hnodup : (fs.flatten.map (·.name)).Nodup) (hnodup' : (fs'.flatten.map (·.name)).Nodup)
    {name : String} {f f' : FunctionDef}
    (hf : f.Counterpart c U r (fs.site name) (fs'.site name) f') :
    (fs.site name).Matched c U r (fs'.site name) := by
  intro name' g hg
  rcases h name' g (site_within hnodup name name' g hg) with ⟨g', hg', hcounter⟩
  -- The counterpart is in sight from the body, so it is found there.
  rcases hf.sights with ⟨_, _, _, _, _, hwidens⟩
  rcases hwidens.functions name' g hg with ⟨g'', hg'', _⟩
  have hsame := site_within hnodup' name name' g'' hg''
  rw [hg'] at hsame
  obtain rfl := Option.some.inj hsame
  rw [site_site hnodup hg, site_site hnodup' hg'']
  exact ⟨g', hg'', hcounter⟩

/-- The functions of a block, when those of its new version have their places already. -/
theorem FunctionScopes.Matched.cons {fs fs' : FunctionScopes} {stmts out : List Stmt}
    (h : fs.Matched c U r fs')
    (hout : ∀ f ∈ stmts.filterMap Stmt.function?, ∃ f' ∈ out.filterMap Stmt.function?,
      f.Counterpart c U r (stmts.filterMap Stmt.function? :: fs) fs' f')
    (hoffers : ∀ f ∈ out.filterMap Stmt.function?,
      fs'.find? f.name = some f ∧ fs'.site f.name = fs') :
    FunctionScopes.Matched c U r (stmts.filterMap Stmt.function? :: fs) fs' := by
  intro name f hf
  rw [find?] at hf
  rw [FunctionScopes.site]
  -- The name is found further out.
  cases hfind : findFunction? name (stmts.filterMap Stmt.function?) with
  | none =>
      rw [hfind] at hf
      exact h name f hf
  -- The name is one of the block.
  | some g =>
      rw [hfind] at hf
      obtain rfl := Option.some.inj hf
      have hmem := List.mem_reverse.mp (List.mem_of_find?_eq_some hfind)
      have hbeq := List.find?_some hfind
      have hname : g.name = name := beq_iff_eq.mp hbeq
      rcases hout g hmem with ⟨g', hg', hcounter⟩
      have hname' : g'.name = name := (congrArg (·.1) hcounter.header).trans hname
      rcases hoffers g' hg' with ⟨hfound, hsite⟩
      rw [hname'] at hfound hsite
      rw [Option.isSome_some, if_pos rfl, hsite]
      exact ⟨g', hfound, hcounter⟩

/-- More scopes on the other side match as well. -/
theorem FunctionScopes.Matched.within {fs fs' fs'' : FunctionScopes} (h : fs.Matched c U r fs')
    (hwithin : ∀ name f, fs'.find? name = some f →
      fs''.find? name = some f ∧ fs''.site name = fs'.site name) : fs.Matched c U r fs'' := by
  intro name f hf
  rcases h name f hf with ⟨f', hf', hcounter⟩
  rcases hwithin name f' hf' with ⟨hfound, hsite⟩
  exact ⟨f', hfound, hsite ▸ hcounter⟩

/-- The functions that some statements define have counterparts. -/
theorem Stmt.BecomesSeq.counterparts : ∀ {stmts out : List Stmt} {k : Known} {v v' : Sight}
    {inLoop inLoop' : Bool}, Stmt.BecomesSeq (.running c U r) k stmts out → v.Distinct →
      v'.Distinct →
    Stmt.FitsSeq c.dialect v inLoop stmts → Stmt.FitsSeq c.dialect v' inLoop' out →
    v.vars ≠ [] → v'.vars ≠ [] → Widens U v v' (Stmt.pendingSeq out) →
    ∀ f ∈ stmts.filterMap Stmt.function?, ∃ f' ∈ out.filterMap Stmt.function?,
      f.Counterpart c U r v.functions v'.functions f'
  | [], _, _, _, _, _, _, _, _, _, _, _, _, _, _, f, hf => absurd hf List.not_mem_nil
  | s :: rest, out, k, v, v', inLoop, inLoop', h, hv, hv', hfits, hfits', hne, hne', hw, f, hf => by
      rcases Stmt.becomesSeq_cons.mp h with ⟨first, more, k₁, rfl, hs, hk₁, hmore⟩
      rw [Stmt.FitsSeq] at hfits
      rw [Stmt.FitsSeq.append] at hfits'
      rw [Stmt.pendingSeq_append] at hw
      rw [List.filterMap_append]
      rcases List.mem_filterMap.mp hf with ⟨s₁, hs₁, hsf⟩
      rcases List.mem_cons.mp hs₁ with rfl | hs₁
      · -- The definition stands at the front.
        cases s₁ with
        | func line name params returns body =>
            obtain rfl := Option.some.inj hsf
            rcases hs with ⟨s', hs', rfl⟩ | ⟨_, hs⟩
            · rw [Stmt.Alike] at hs'
              rcases hs' with ⟨body', rfl, hbody⟩
              have hsource := hfits.1
              have htarget := Stmt.fitsSeq_singleton.mp hfits'.1
              -- The definition fits on both sides, so that its body sees matching names.
              rw [Stmt.Fits] at hsource htarget
              have hnames : Widens U v v' ((params ++ returns).map (·.name) ++ body'.declared) := by
                simpa only [Stmt.pendingSeq_cons, Stmt.pendingSeq_nil, Stmt.pending, Stmt.allInner,
                  List.append_nil, Block.declared] using hw.left
              refine ⟨⟨line, name, params, returns, body'⟩, List.mem_append_left _ ?_, rfl, hbody,
                v.visible ++ v.hidden, v'.visible ++ v'.hidden,
                distinct_enterFunction hv hsource.1, hsource.2,
                distinct_enterFunction hv' htarget.1, hnames.enterFunction⟩
              exact List.mem_singleton_self _
            -- A function definition never gives way.
            · simp only [Stmt.GivesWay] at hs
        | _ => exact absurd hsf (by rintro ⟨⟩)
      -- The definition stands further behind.
      · rcases Stmt.BecomesSeq.counterparts hmore (Stmt.Fits.distinct_after hv hfits.1)
          (Stmt.FitsSeq.distinct_afterSeq hv' hfits'.1) hfits.2 hfits'.2
          (vars_after_ne hne s) (vars_afterSeq_ne hne' first) (hw.after hs hne hne') f
          (List.mem_filterMap.mpr ⟨s₁, hs₁, hsf⟩) with ⟨f', hf', hcounter⟩
        rw [functions_after, functions_afterSeq] at hcounter
        exact ⟨f', List.mem_append_right _ hf', hcounter⟩

/-- The functions of a block correspond to those of its new version. -/
structure Stmt.Correspond (c : RunContext) (U : String → Prop) (r : Liberty)
    (stmts out : List Stmt) : Prop where
  mirrors : Stmt.Mirrors U stmts out
  counterparts : ∀ {v v' : Sight} {inLoop inLoop' : Bool}, v.Distinct → v'.Distinct →
    Stmt.FitsSeq c.dialect v inLoop stmts → Stmt.FitsSeq c.dialect v' inLoop' out →
    v.vars ≠ [] → v'.vars ≠ [] → Widens U v v' (Stmt.pendingSeq out) →
    ∀ f ∈ stmts.filterMap Stmt.function?, ∃ f' ∈ out.filterMap Stmt.function?,
      f.Counterpart c U r v.functions v'.functions f'

theorem Stmt.BecomesSeq.correspond {stmts out : List Stmt} {k : Known}
    (h : Stmt.BecomesSeq (.running c U r) k stmts out) : Stmt.Correspond c U r stmts out :=
  ⟨h.mirrors, h.counterparts⟩

/-- A statement without a function may be added. -/
theorem Stmt.Correspond.append {stmts out : List Stmt} (h : Stmt.Correspond c U r stmts out)
    {s : Stmt} (hs : s.function? = none) : Stmt.Correspond c U r stmts (out ++ [s]) := by
  have hnone : [s].filterMap Stmt.function? = [] := by
    rw [List.filterMap_cons_none hs, List.filterMap_nil]
  refine ⟨?_, ?_⟩
  · have hmirrors : Stmt.Mirrors U (stmts ++ []) (out ++ [s]) :=
      h.mirrors.append (.of_none rfl fun f hf => absurd (hnone ▸ hf) List.not_mem_nil)
    rw [List.append_nil] at hmirrors
    exact hmirrors
  · intro v v' inLoop inLoop' hv hv' hfits hfits' hne hne' hw f hf
    rw [Stmt.FitsSeq.append] at hfits'
    rw [Stmt.pendingSeq_append] at hw
    rcases h.counterparts hv hv' hfits hfits'.1 hne hne' hw.left f hf with ⟨f', hf', hcounter⟩
    rw [List.filterMap_append]
    exact ⟨f', List.mem_append_left _ hf', hcounter⟩

/-- Places in the old and in the new code, with all that runs from there depend on. -/
structure Sight.Twins (c : RunContext) (U : String → Prop) (r : Liberty) (v v' : Sight)
    (names : List String) :
    Prop extends Sight.Widens U v v' names where
  distinct : v.Distinct
  fit : v.functions.Fit c.dialect
  distinct' : v'.Distinct
  fit' : v'.functions.Fit c.dialect
  matched : v.functions.Matched c U r v'.functions

namespace Sight.Twins

variable {v v' : Sight} {names names' : List String}

theorem fewer (h : Twins c U r v v' names) (hle : ∀ x, names'.count x ≤ names.count x) :
    Twins c U r v v' names' :=
  ⟨h.toWidens.fewer hle, h.distinct, h.fit, h.distinct', h.fit', h.matched⟩

theorem left (h : Twins c U r v v' (names ++ names')) : Twins c U r v v' names :=
  ⟨h.toWidens.left, h.distinct, h.fit, h.distinct', h.fit', h.matched⟩

theorem right (h : Twins c U r v v' (names ++ names')) : Twins c U r v v' names' :=
  ⟨h.toWidens.right, h.distinct, h.fit, h.distinct', h.fit', h.matched⟩

/-- Entering a block that is spliced in the new code. -/
theorem splice {stmts out : List Stmt} {inLoop inLoop' : Bool}
    (h : Twins c U r v v' (Stmt.pendingSeq out)) (hc : Stmt.Correspond c U r stmts out)
    (hfree : v.Free c.dialect ((stmts.filterMap Stmt.function?).map (·.name)))
    (hfits : Stmt.FitsSeq c.dialect (v.enter stmts) inLoop stmts)
    (hfits' : Stmt.FitsSeq c.dialect v' inLoop' out) (hoffers : v'.Offers out)
    (hne' : v'.vars ≠ []) : Twins c U r (v.enter stmts) v' (Stmt.pendingSeq out) := by
  have hdistinct := distinct_enter h.distinct hfree
  have hwidens := h.toWidens.splice hc.mirrors hoffers
  refine ⟨hwidens, hdistinct, .enter h.distinct h.fit hfree hfits, h.distinct', h.fit', ?_⟩
  exact h.matched.cons (hc.counterparts hdistinct h.distinct' hfits hfits' (List.cons_ne_nil _ _)
    hne' hwidens) hoffers

/-- Entering a block that is a block in the new code as well. -/
theorem enter {stmts out : List Stmt} {line : Nat} {inLoop inLoop' : Bool}
    (h : Twins c U r v v' ((⟨line, out⟩ : Block).declared ++ names))
    (hc : Stmt.Correspond c U r stmts out)
    (hfree : v.Free c.dialect ((stmts.filterMap Stmt.function?).map (·.name)))
    (hfits : Stmt.FitsSeq c.dialect (v.enter stmts) inLoop stmts)
    (hfree' : v'.Free c.dialect ((out.filterMap Stmt.function?).map (·.name)))
    (hfits' : Stmt.FitsSeq c.dialect (v'.enter out) inLoop' out) :
    Twins c U r (v.enter stmts) (v'.enter out) (Stmt.pendingSeq out ++ names) := by
  have hdistinct := distinct_enter h.distinct hfree
  have hdistinct' := distinct_enter h.distinct' hfree'
  -- Names, distinctness and fitting first; the functions of the block are what is left to match.
  have hwidens := h.toWidens.enter hc.mirrors hfree'
  refine ⟨hwidens, hdistinct, .enter h.distinct h.fit hfree hfits, hdistinct',
    .enter h.distinct' h.fit' hfree' hfits', ?_⟩
  have hcounter := hc.counterparts hdistinct hdistinct' hfits hfits' (List.cons_ne_nil _ _)
    (List.cons_ne_nil _ _) hwidens.left
  refine FunctionScopes.Matched.cons (h.matched.within fun name f hf => ?_) hcounter
    (Offers.enter hfree'.1)
  -- A function further out is not hidden by the block.
  have hnone := FunctionScopes.findFunction?_eq_none fun hmem =>
    (hfree'.2 name hmem).2.2 (mem_taken.mpr (Or.inl (mem_functionNames hf)))
  rw [functions_enter, FunctionScopes.site, FunctionScopes.find?, hnone]
  exact ⟨hf, rfl⟩

/-- Entering a block without declarations in the new code. -/
theorem enter_nil (h : Twins c U r v v' names) : Twins c U r v (v'.enter []) names := by
  refine ⟨h.toWidens.enter_nil, h.distinct, h.fit,
    distinct_enter h.distinct' (free_nil c.dialect v'),
    ⟨fun f hf => absurd hf List.not_mem_nil, h.fit'⟩, ?_⟩
  exact h.matched.within fun name f hf => ⟨hf, rfl⟩

/-- Behind a statement and what it becomes. -/
theorem after {s : Stmt} {out : List Stmt} {k : Known} {inLoop inLoop' : Bool}
    (h : Twins c U r v v' (Stmt.pendingSeq out ++ names)) (hs : s.Becomes (.running c U r) k out)
    (hfits : s.Fits c.dialect v inLoop) (hfits' : Stmt.FitsSeq c.dialect v' inLoop' out)
    (hne : v.vars ≠ []) (hne' : v'.vars ≠ []) :
    Twins c U r (v.after s) (v'.afterSeq out) names := by
  refine ⟨h.toWidens.after hs hne hne', Stmt.Fits.distinct_after h.distinct hfits, ?_,
    Stmt.FitsSeq.distinct_afterSeq h.distinct' hfits', ?_, ?_⟩
  · rw [functions_after]
    exact h.fit
  · rw [functions_afterSeq]
    exact h.fit'
  · rw [functions_after, functions_afterSeq]
    exact h.matched

/-- Behind some statements and what they become. -/
theorem afterSeq {stmts out : List Stmt} {k : Known} {inLoop inLoop' : Bool}
    (h : Twins c U r v v' (Stmt.pendingSeq out ++ names))
    (hs : Stmt.BecomesSeq (.running c U r) k stmts out)
    (hfits : Stmt.FitsSeq c.dialect v inLoop stmts)
    (hfits' : Stmt.FitsSeq c.dialect v' inLoop' out) (hne : v.vars ≠ []) (hne' : v'.vars ≠ []) :
    Twins c U r (v.afterSeq stmts) (v'.afterSeq out) names := by
  refine ⟨h.toWidens.afterSeq hs hne hne', Stmt.FitsSeq.distinct_afterSeq h.distinct hfits, ?_,
    Stmt.FitsSeq.distinct_afterSeq h.distinct' hfits', ?_, ?_⟩
  · rw [functions_afterSeq]
    exact h.fit
  · rw [functions_afterSeq]
    exact h.fit'
  · rw [functions_afterSeq, functions_afterSeq]
    exact h.matched

end Sight.Twins

/-- Places at the start of the body of a function and of its counterpart. -/
theorem FunctionDef.Counterpart.twins {fs fs' : FunctionScopes} {name : String}
    {f f' : FunctionDef} (hfit : fs.Fit c.dialect) (hnodup : (fs.flatten.map (·.name)).Nodup)
    (hfit' : fs'.Fit c.dialect) (hnodup' : (fs'.flatten.map (·.name)).Nodup)
    (hmatched : fs.Matched c U r fs')
    (hf : f.Counterpart c U r (fs.site name) (fs'.site name) f') :
    ∃ hidden hidden', Twins c U r ⟨fs.site name, [f.names], hidden⟩
        ⟨fs'.site name, [f.names], hidden'⟩ f'.body.declared ∧
      f.body.Fits c.dialect ⟨fs.site name, [f.names], hidden⟩ false ∧
      f'.body.Fits c.dialect ⟨fs'.site name, [f.names], hidden'⟩ false := by
  rcases hf.sights with ⟨hidden, hidden', hdistinct, hfits, hdistinct', hwidens⟩
  exact ⟨hidden, hidden', ⟨hwidens, hdistinct, hfit.site name, hdistinct', hfit'.site name,
    hmatched.site hnodup hnodup' hf⟩, hfits,
    hf.body.fits hfits hwidens (Known.fits_nothing _ _)⟩

/-- Places at the start of a program and of what it became. -/
theorem Sight.Twins.empty {names : List String} (hroom : ∀ x, U x → names.count x ≤ 1) :
    Twins c U r .empty .empty names := by
  refine ⟨⟨List.Subset.refl _, fun _ _ h => absurd h (by rintro ⟨⟩),
    fun _ h => absurd h List.not_mem_nil, fun x hx => ?_⟩, List.nodup_nil, trivial, List.nodup_nil,
    trivial, fun _ _ h => absurd h (by rintro ⟨⟩)⟩
  have hnone : (Sight.empty.taken).count x = 0 := List.count_nil
  rw [hnone, Nat.zero_add]
  exact hroom x hx

end Sights

end YulToolchain
