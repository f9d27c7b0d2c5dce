import YulToolchain.Analysis
import YulToolchain.Proofs.Static.Sight

/-!
# Scopes and Sight

What the numbered scopes of the analysis show at a place.

The analysis asks about names by walking outwards from a scope, along a chain of
numbers that is cut off by a bound. Scopes are opened after the scopes around
them, so the numbers fall along a chain and the bound is never met
(`chain_eq`). From then on a chain is just the list of the scopes around a place,
and two lists of scopes that agree up to a number show the same from there
(`chain_congr`).

`Shows` relates a place in the numbered scopes to a `Sight`. Each thing the
analysis does to the scopes, opening one or declaring a name, has its lemma that
says what is shown afterwards.

## Main definitions

* `Scopes.Ordered`: Every scope is opened after the one around it.
* `Scopes.Extends`: Scopes are added, and only one of the old ones has changed.
* `Shows`: A place in the scopes shows what a sight says.

## Theorems

* `Scopes.chain_eq`: A chain is a scope followed by the chain of the one around.
* `Scopes.chain_congr`: A chain depends on the scopes up to its number alone.
* `Shows.congr`: What is shown depends on the scopes up to a number alone.
* `Shows.push_block`, `Shows.push_function`: What a new scope shows.
* `Shows.register_var`, `Shows.register_function`: What is shown after a
  declaration.
-/

namespace YulToolchain

namespace Scopes

/-- Every scope is opened after the one around it. -/
def Ordered (ss : Scopes) : Prop :=
  ∀ i s p, ss.get? i = some s → s.parent = some p → p < i

/-- Scopes are added, and of the old ones only that with a number has changed. -/
structure Extends (id : Nat) (ss ss' : Scopes) : Prop where
  /-- No scope was removed. -/
  size_le : ss.toArray.size ≤ ss'.toArray.size
  /-- The other scopes are as before. -/
  same : ∀ i < ss.toArray.size, i ≠ id → ss'.get? i = ss.get? i

theorem Extends.refl (id : Nat) (ss : Scopes) : Extends id ss ss :=
  ⟨Nat.le_refl _, fun _ _ _ => rfl⟩

theorem Extends.trans {id : Nat} {a b c : Scopes} (hab : Extends id a b) (hbc : Extends id b c) :
    Extends id a c :=
  ⟨Nat.le_trans hab.size_le hbc.size_le, fun i hi hne =>
    (hbc.same i (Nat.lt_of_lt_of_le hi hab.size_le) hne).trans (hab.same i hi hne)⟩

theorem get?_isSome {ss : Scopes} {id : Nat} (h : id < ss.toArray.size) :
    ∃ s, ss.get? id = some s :=
  ⟨ss.toArray[id], by simp only [get?, Array.getElem?_eq_getElem h]⟩

/-- A number that stands for a scope is below the count. -/
theorem lt_of_get? {ss : Scopes} {id : Nat} {s : Scope} (h : ss.get? id = some s) :
    id < ss.toArray.size := by
  by_contra hc
  rw [get?, Array.getElem?_eq_none (Nat.le_of_not_lt hc)] at h
  exact absurd h (by simp only [reduceCtorEq, not_false_eq_true])

/-- The bound of a chain does not matter as long as it exceeds the number. -/
theorem chainFrom_fuel {ss : Scopes} (h : ss.Ordered) :
    ∀ (fuel fuel' id : Nat), id < fuel → id < fuel' →
      ss.chainFrom fuel id = ss.chainFrom fuel' id := by
  intro fuel
  induction fuel with
  | zero => intro fuel' id hlt; omega
  | succ n ih =>
      intro fuel' id hlt hlt'
      obtain ⟨m, rfl⟩ : ∃ m, fuel' = m + 1 := ⟨fuel' - 1, by omega⟩
      simp only [chainFrom]
      rcases hs : ss.get? id with _ | s
      · rfl
      · rcases hp : s.parent with _ | p
        · simp only [hp]
        · have hlt := h id s p hs hp
          simp only [hp, ih m p (by omega) (by omega)]

/-- A chain is a scope followed by the chain of the scope around it. -/
theorem chain_eq {ss : Scopes} (h : ss.Ordered) {id : Nat} {s : Scope} (hs : ss.get? id = some s) :
    ss.chain id = (id, s) :: match s.parent with
      | none => []
      | some p => ss.chain p := by
  have hlt := lt_of_get? hs
  obtain ⟨n, hn⟩ : ∃ n, ss.toArray.size = n + 1 := ⟨ss.toArray.size - 1, by omega⟩
  rw [chain, hn, chainFrom]
  simp only [hs]
  rcases hp : s.parent with _ | p
  · rfl
  · have := h id s p hs hp
    simp only [chain, hn, chainFrom_fuel h n (n + 1) p (by omega) (by omega)]

/-- A chain depends on the scopes up to its number alone. -/
theorem chain_congr {ss ss' : Scopes} (h : ss.Ordered) (h' : ss'.Ordered) :
    ∀ id, id < ss.toArray.size → (∀ i ≤ id, ss'.get? i = ss.get? i) →
      ss'.chain id = ss.chain id := by
  intro id
  induction id using Nat.strongRecOn with
  | ind id ih =>
      intro hlt hsame
      rcases get?_isSome hlt with ⟨s, hs⟩
      have hs' : ss'.get? id = some s := by rw [hsame id (Nat.le_refl _), hs]
      rw [chain_eq h hs, chain_eq h' hs']
      rcases hp : s.parent with _ | p
      · rfl
      · have hlt' := h id s p hs hp
        simp only [ih p hlt' (by omega) fun i hi => hsame i (by omega)]

/-- Beyond a function boundary exactly the variables are lost. -/
theorem lookupIn_true {name : String} {chain : List (Nat × Scope)} {r : Declaration × Symbol} :
    lookupIn name true chain = some r ↔
      lookupIn name false chain = some r ∧ r.2.isVariable = false := by
  induction chain with
  | nil => simp only [lookupIn, reduceCtorEq, false_and]
  | cons e outer ih =>
      rcases e with ⟨id, s⟩
      simp only [lookupIn]
      rcases hf : s.find? name with _ | symbol
      · cases hb : s.isFunction with
        | false => simpa only [Bool.or_false, Bool.false_or] using ih
        | true =>
            simp only [Bool.or_true]
            rw [ih]
            tauto
      · cases symbol <;> simp [Symbol.isVariable] <;> rintro rfl <;> rfl

/-- A name is looked up in the scope, then in its parent, where functions hide variables. -/
theorem lookup_eq {ss : Scopes} (h : ss.Ordered) {id : Nat} {s : Scope}
    (hs : ss.get? id = some s) (name : String) :
    ss.lookup id name = match s.find? name, s.parent with
      | some symbol, _ => some (⟨id, name⟩, symbol)
      | none, none => none
      | none, some p => lookupIn name s.isFunction (ss.chain p) := by
  rw [lookup, chain_eq h hs]
  simp only [lookupIn, Bool.false_and, Bool.false_eq_true, if_false, Bool.false_or]
  cases s.find? name with
  | some symbol => rfl
  | none => cases s.parent <;> rfl

/-- A name is taken in the scope or in its parent, whatever it is there. -/
theorem taken_eq {ss : Scopes} (h : ss.Ordered) {id : Nat} {s : Scope}
    (hs : ss.get? id = some s) (name : String) :
    ss.taken id name = ((s.find? name).isSome || match s.parent with
      | none => false
      | some p => ss.taken p name) := by
  rw [taken, chain_eq h hs]
  simp only [List.any_cons]
  rcases s.parent with _ | p
  · rfl
  · rfl

section Push

variable {ss : Scopes} {parent : Option Nat} {isFunction : Bool}

theorem get?_push_old {i : Nat} (h : i < ss.toArray.size) :
    (ss.push parent isFunction).2.get? i = ss.get? i := by
  simp only [push, get?, Array.getElem?_push, Nat.ne_of_lt h, if_false]

theorem get?_push_new :
    (ss.push parent isFunction).2.get? ss.toArray.size = some ⟨parent, isFunction, []⟩ := by
  simp only [push, get?, Array.getElem?_push, if_true]

theorem size_push : (ss.push parent isFunction).2.toArray.size = ss.toArray.size + 1 := by
  simp only [push, Array.size_push]

/-- Scopes are opened below ones that exist already. -/
theorem ordered_push (h : ss.Ordered) (hp : ∀ p, parent = some p → p < ss.toArray.size) :
    (ss.push parent isFunction).2.Ordered := by
  intro i s p hs hsp
  have hlt := lt_of_get? hs
  rw [size_push] at hlt
  by_cases hi : i < ss.toArray.size
  · rw [get?_push_old hi] at hs
    exact h i s p hs hsp
  · obtain rfl : i = ss.toArray.size := by omega
    rw [get?_push_new, Option.some.injEq] at hs
    subst hs
    exact hp p hsp

end Push

section Register

variable {ss ss' : Scopes} {id : Nat} {s : Scope} {name : String} {symbol : Symbol}

/-- Registering changes one scope, by one entry. -/
theorem get?_register (hs : ss.get? id = some s) (h : ss.register? id name symbol = some ss')
    (i : Nat) : ss'.get? i = if i = id then some { s with symbols := (name, symbol) :: s.symbols }
      else ss.get? i := by
  simp only [register?, hs] at h
  split at h
  · exact absurd h (by simp only [reduceCtorEq, not_false_eq_true])
  · rw [Option.some.injEq] at h
    subst h
    simp only [get?, Array.getElem?_modify]
    by_cases hi : id = i
    · subst hi
      rw [get?] at hs
      simp only [hs, if_true, Option.map_some]
    · rw [if_neg hi, if_neg (Ne.symm hi)]

/-- Registering opens no scope. -/
theorem size_register (h : ss.register? id name symbol = some ss') :
    ss'.toArray.size = ss.toArray.size := by
  unfold register? at h
  split at h
  · exact absurd h (by simp only [reduceCtorEq, not_false_eq_true])
  · split at h
    · exact absurd h (by simp only [reduceCtorEq, not_false_eq_true])
    · rw [Option.some.injEq] at h
      subst h
      exact Array.size_modify

/-- Registering changes no parents. -/
theorem ordered_register (ho : ss.Ordered) (hs : ss.get? id = some s)
    (h : ss.register? id name symbol = some ss') : ss'.Ordered := by
  intro i t p ht hp
  rw [get?_register hs h] at ht
  split at ht
  · rename_i hi
    subst hi
    rw [Option.some.injEq] at ht
    subst ht
    exact ho i s p hs hp
  · exact ho i t p ht hp

theorem extends_register (hs : ss.get? id = some s)
    (h : ss.register? id name symbol = some ss') : Extends id ss ss' :=
  ⟨Nat.le_of_eq (size_register h).symm, fun i _ hi => by rw [get?_register hs h, if_neg hi]⟩

end Register

/-- What was found before is found again, at every place. -/
def Grows (ss ss' : Scopes) : Prop :=
  ∀ id name r, ss.lookup id name = some r → ss'.lookup id name = some r

theorem Grows.refl (ss : Scopes) : Grows ss ss := fun _ _ _ h => h

theorem Grows.trans {a b c : Scopes} (hab : Grows a b) (hbc : Grows b c) : Grows a c :=
  fun id name r h => hbc id name r (hab id name r h)

/-- Names are looked up from scopes that exist. -/
theorem lookup_lt {ss : Scopes} {id : Nat} {name : String}
    {r : Declaration × Symbol} (hr : ss.lookup id name = some r) : id < ss.toArray.size := by
  by_contra hc
  have hnone : ss.get? id = none := Array.getElem?_eq_none (Nat.le_of_not_lt hc)
  rw [lookup, chain] at hr
  cases hsize : ss.toArray.size <;>
    simp only [hsize, chainFrom, hnone, lookupIn, reduceCtorEq] at hr

/-- What is found from a scope depends on it and on the earlier ones. -/
theorem lookup_congr {ss ss' : Scopes} (h : ss.Ordered) (h' : ss'.Ordered) {id : Nat}
    (hlt : id < ss.toArray.size) (hsame : ∀ i ≤ id, ss'.get? i = ss.get? i) (name : String) :
    ss'.lookup id name = ss.lookup id name := by
  rw [lookup, lookup, chain_congr h h' id hlt hsame]

/-- What is taken in a scope depends on it and on the earlier ones. -/
theorem taken_congr {ss ss' : Scopes} (h : ss.Ordered) (h' : ss'.Ordered) {id : Nat}
    (hlt : id < ss.toArray.size) (hsame : ∀ i ≤ id, ss'.get? i = ss.get? i) (name : String) :
    ss'.taken id name = ss.taken id name := by
  rw [taken, taken, chain_congr h h' id hlt hsame]

/-- A new scope hides nothing of the old ones. -/
theorem grows_push {ss : Scopes} {parent : Option Nat} {isFunction : Bool} (h : ss.Ordered)
    (hp : ∀ p, parent = some p → p < ss.toArray.size) :
    Grows ss (ss.push parent isFunction).2 := by
  intro id name r hr
  have hlt := lookup_lt hr
  rw [lookup_congr h (ordered_push h hp) hlt (fun i hi => get?_push_old (by omega)), hr]

/-- A name that can be looked up beyond a scope is taken there. -/
theorem taken_of_lookup {ss : Scopes} {id : Nat} {name : String} {crossed : Bool}
    {r : Declaration × Symbol} (hr : lookupIn name crossed (ss.chain id) = some r) :
    ss.taken id name = true := by
  -- The chain is walked with or without a function crossed on the way.
  have hchain : ∀ (chain : List (Nat × Scope)) (crossed : Bool),
      lookupIn name crossed chain = some r →
        (chain.any fun e => (e.2.find? name).isSome) = true := by
    intro chain
    induction chain with
    | nil => intro crossed h; simp only [lookupIn, reduceCtorEq] at h
    | cons e outer ih =>
        intro crossed h
        rcases e with ⟨id, s⟩
        simp only [lookupIn] at h
        rcases hf : s.find? name with _ | symbol
        · simp only [hf] at h
          simp only [List.any_cons, ih _ h, Bool.or_true]
        · simp only [List.any_cons, hf, Option.isSome_some, Bool.true_or]
  exact hchain _ _ hr

/-- A declaration of a name that is not taken hides nothing: around its own scope
    there is no such name, and what lies further in is found first. -/
theorem grows_register {ss ss' : Scopes} {scope : Nat} {s : Scope} {name : String}
    {symbol : Symbol} (ho : ss.Ordered) (hs : ss.get? scope = some s)
    (h : ss.register? scope name symbol = some ss') (htaken : ss.taken scope name = false) :
    Grows ss ss' := by
  have ho' := ordered_register ho hs h
  have hget := get?_register hs h
  have hin : ∀ id, id < ss.toArray.size → ∀ crossed x r,
      lookupIn x crossed (ss.chain id) = some r → lookupIn x crossed (ss'.chain id) = some r := by
    intro id
    -- Parents have smaller numbers, so the induction is on the number of the scope.
    induction id using Nat.strongRecOn with
    | ind id ih =>
        intro hlt crossed x r hr
        rcases get?_isSome hlt with ⟨t, ht⟩
        -- But for the new entry every scope is as before.
        have hsame : ∃ t', ss'.get? id = some t' ∧ t'.find? x = t.find? x ∧
            t'.parent = t.parent ∧ t'.isFunction = t.isFunction := by
          by_cases hid : id = scope
          · subst hid
            obtain rfl : t = s := Option.some.inj (ht.symm.trans hs)
            refine ⟨{ t with symbols := (name, symbol) :: t.symbols }, by rw [hget, if_pos rfl],
              ?_, rfl, rfl⟩
            -- What was found under the new name would have made it taken.
            have hx : x ≠ name := by
              rintro rfl
              exact absurd (taken_of_lookup hr) (by rw [htaken]; exact Bool.false_ne_true)
            simp only [Scope.find?, List.lookup_cons, beq_eq_false_iff_ne.mpr hx]
          · exact ⟨t, by rw [hget, if_neg hid, ht], rfl, rfl, rfl⟩
        rcases hsame with ⟨t', ht', hfind, hparent, hfun⟩
        rw [chain_eq ho ht] at hr
        rw [chain_eq ho' ht']
        simp only [lookupIn, hfind, hparent, hfun] at hr ⊢
        rcases hf : t.find? x with _ | symbol'
        · simp only [hf] at hr ⊢
          rcases hp : t.parent with _ | p
          · simpa only [hp] using hr
          · simp only [hp] at hr ⊢
            have := ho id t p ht hp
            exact ih p this (by omega) _ x r hr
        · simpa only [hf] using hr
  exact fun id x r hr => hin id (lookup_lt hr) false x r hr

end Scopes

/-- What a sight says about a name that stands for a symbol. -/
def Sight.Stands (v : Sight) (name : String) : Symbol → Prop
  | .var _ => name ∈ v.visible
  | .function params returns => ∃ f, v.functions.find? name = some f ∧
      params = f.params.map (·.type) ∧ returns = f.returns.map (·.type)
  | .label => False

/-- A place in the scopes shows what a sight says. -/
structure Shows (ss : Scopes) (id : Nat) (v : Sight) : Prop where
  ordered : ss.Ordered
  /-- The scope of the place is open. -/
  opened : id < ss.toArray.size
  /-- There is a scope for variables. -/
  vars_ne : v.vars ≠ []
  /-- What is found is in sight. -/
  found : ∀ name d symbol, ss.lookup id name = some (d, symbol) → v.Stands name symbol
  /-- Variables in sight are found. -/
  seen : ∀ name ∈ v.visible, ∃ d type, ss.lookup id name = some (d, .var type)
  /-- Functions in sight are found. -/
  called : ∀ name f, v.functions.find? name = some f → ∃ d, ss.lookup id name
    = some (d, .function (f.params.map (·.type)) (f.returns.map (·.type)))
  /-- The same names are taken. -/
  taken : ∀ name, ss.taken id name = true ↔ name ∈ v.taken

namespace Shows

variable {ss ss' : Scopes} {id : Nat} {v : Sight}

/-- What is shown depends on the scopes up to a number alone. -/
theorem congr (h : Shows ss id v) (ho : ss'.Ordered) (hsize : id < ss'.toArray.size)
    (hsame : ∀ i ≤ id, ss'.get? i = ss.get? i) : Shows ss' id v := by
  have hlookup := Scopes.lookup_congr h.ordered ho h.opened hsame
  have htaken := Scopes.taken_congr h.ordered ho h.opened hsame
  refine ⟨ho, hsize, h.vars_ne, ?_, ?_, ?_, ?_⟩
  · intro name d symbol hr
    rw [hlookup] at hr
    exact h.found name d symbol hr
  · intro name hname
    rw [hlookup]
    exact h.seen name hname
  · intro name f hf
    rw [hlookup]
    exact h.called name f hf
  · intro name
    rw [htaken]
    exact h.taken name

/-- Looking up from a new scope is looking up from its parent. -/
theorem lookup_push {isFunction : Bool} (h : Shows ss id v) (name : String) :
    (ss.push (some id) isFunction).2.lookup ss.toArray.size name
      = Scopes.lookupIn name isFunction (ss.chain id) := by
  have ho : (ss.push (some id) isFunction).2.Ordered := Scopes.ordered_push h.ordered
    (fun p (hp : some id = some p) => Option.some.inj hp ▸ h.opened)
  rw [Scopes.lookup_eq ho Scopes.get?_push_new]
  simp only [Scope.find?, List.lookup_nil]
  rw [Scopes.chain_congr h.ordered ho id h.opened
    (fun i hi => Scopes.get?_push_old (Nat.lt_of_le_of_lt hi h.opened))]

/-- A new scope has the names of its parent taken. -/
theorem taken_push {isFunction : Bool} (h : Shows ss id v) (name : String) :
    (ss.push (some id) isFunction).2.taken ss.toArray.size name = ss.taken id name := by
  have ho : (ss.push (some id) isFunction).2.Ordered := Scopes.ordered_push h.ordered
    (fun p (hp : some id = some p) => Option.some.inj hp ▸ h.opened)
  rw [Scopes.taken_eq ho Scopes.get?_push_new]
  simp only [Scope.find?, List.lookup_nil, Option.isSome_none, Bool.false_or]
  exact Scopes.taken_congr h.ordered ho h.opened
    (fun i hi => Scopes.get?_push_old (Nat.lt_of_le_of_lt hi h.opened)) name

/-- A new block shows what the place around it shows. -/
theorem push_block (h : Shows ss id v) :
    Shows (ss.push (some id) false).2 ss.toArray.size
      ⟨[] :: v.functions, [] :: v.vars, v.hidden⟩ := by
  refine ⟨Scopes.ordered_push h.ordered
    (fun p hp => Option.some.inj hp ▸ h.opened), ?_, List.cons_ne_nil _ _, ?_, ?_, ?_, ?_⟩
  -- The new scope is the last one.
  · rw [Scopes.size_push]
    exact Nat.lt_succ_self _
  · intro name d symbol hr
    rw [lookup_push h] at hr
    exact h.found name d symbol hr
  · intro name hname
    rw [lookup_push h]
    exact h.seen name hname
  · intro name f hf
    rw [lookup_push h]
    exact h.called name f hf
  -- Both sides have the names of the scope around it.
  · intro name
    rw [taken_push h, h.taken]
    rfl

/-- The block of a program shows nothing. -/
theorem push_root : Shows (Scopes.empty.push none false).2 0 ⟨[[]], [[]], []⟩ := by
  have ho : (Scopes.empty.push none false).2.Ordered :=
    Scopes.ordered_push (fun i s p hs _ => absurd (Scopes.lt_of_get? hs) (Nat.not_lt_zero i))
      (fun p hp => absurd hp (by simp only [reduceCtorEq, not_false_eq_true]))
  refine ⟨ho, Nat.zero_lt_one, List.cons_ne_nil _ _, ?_, ?_, ?_, ?_⟩
  · intro name d symbol hr
    exact absurd hr (by rintro ⟨⟩)
  · intro name hname
    exact absurd hname (List.not_mem_nil)
  · intro name f hf
    exact absurd hf (by rintro ⟨⟩)
  · intro name
    exact ⟨fun h => absurd h (by rintro ⟨⟩), fun h => absurd h (List.not_mem_nil)⟩

/-- The head of a new function shows the functions around it. The variables there
    are taken but not seen. -/
theorem push_function (h : Shows ss id v) :
    Shows (ss.push (some id) true).2 ss.toArray.size
      ⟨v.functions, [[]], v.visible ++ v.hidden⟩ := by
  refine ⟨Scopes.ordered_push h.ordered
    (fun p hp => Option.some.inj hp ▸ h.opened), ?_, List.cons_ne_nil _ _, ?_, ?_, ?_, ?_⟩
  · rw [Scopes.size_push]
    exact Nat.lt_succ_self _
  · intro name d symbol hr
    rw [lookup_push h] at hr
    -- Through the border of a function only what is no variable is found.
    rcases Scopes.lookupIn_true.mp hr with ⟨hr, hvar⟩
    have := h.found name d symbol hr
    cases symbol with
    | var type => exact absurd hvar (by simp only [Symbol.isVariable]; exact Bool.noConfusion)
    | label => exact this
    | function params returns => exact this
  -- No variable is visible right inside of a function.
  · intro name hname
    exact absurd hname (by simp only [Sight.visible, List.flatten_cons, List.flatten_nil,
      List.append_nil, List.not_mem_nil, not_false_eq_true])
  -- Functions are called across the border.
  · intro name f hf
    rw [lookup_push h]
    rcases h.called name f hf with ⟨d, hd⟩
    exact ⟨d, Scopes.lookupIn_true.mpr ⟨hd, rfl⟩⟩
  · intro name
    rw [taken_push h, h.taken, Sight.mem_taken, Sight.mem_taken]
    simp only [Sight.functionNames, Sight.visible, List.flatten_cons, List.flatten_nil,
      List.append_nil, List.not_mem_nil, false_or, List.mem_append]

/-- After a declaration a place shows one more name. -/
theorem register {name : String} {symbol : Symbol} {v' : Sight} (h : Shows ss id v)
    (hr : ss.register? id name symbol = some ss') (hvars : v'.vars ≠ [])
    (hstands : v'.Stands name symbol) (hvar : name ∈ v'.visible → symbol.isVariable = true)
    (hfun : ∀ f, v'.functions.find? name = some f →
      symbol = .function (f.params.map (·.type)) (f.returns.map (·.type)))
    (hvisible : ∀ x, x ≠ name → (x ∈ v'.visible ↔ x ∈ v.visible))
    (hfind : ∀ x, x ≠ name → v'.functions.find? x = v.functions.find? x)
    (htaken : ∀ x, x ∈ v'.taken ↔ x = name ∨ x ∈ v.taken) : Shows ss' id v' := by
  rcases Scopes.get?_isSome h.opened with ⟨s, hs⟩
  have ho := Scopes.ordered_register h.ordered hs hr
  have hget := Scopes.get?_register hs hr
  have hs' : ss'.get? id = some { s with symbols := (name, symbol) :: s.symbols } := by
    rw [hget, if_pos rfl]
  -- The scopes around it do not change.
  have hchain : ∀ p, s.parent = some p → ss'.chain p = ss.chain p := by
    intro p hp
    have hlt := h.ordered id s p hs hp
    have hopened := h.opened
    refine Scopes.chain_congr h.ordered ho p (by omega) (fun i hi => ?_)
    rw [hget, if_neg (by omega)]
  -- The new name is found in the scope itself.
  have hnew : ss'.lookup id name = some (⟨id, name⟩, symbol) := by
    rw [Scopes.lookup_eq ho hs']
    simp only [Scope.find?, List.lookup_cons, beq_self_eq_true]
  -- Any other name is found as before.
  have hold : ∀ x, x ≠ name → ss'.lookup id x = ss.lookup id x := by
    intro x hx
    rw [Scopes.lookup_eq ho hs', Scopes.lookup_eq h.ordered hs]
    simp only [Scope.find?, List.lookup_cons, beq_eq_false_iff_ne.mpr hx]
    rcases hp : s.parent with _ | p
    · cases s.symbols.lookup x <;> rfl
    · cases s.symbols.lookup x with
      | some _ => rfl
      | none => simp only [hchain p hp]
  -- Each of the four conditions is the given one for the new name and the old one for others.
  refine ⟨ho, (Scopes.size_register hr).symm ▸ h.opened, hvars, ?_, ?_, ?_, ?_⟩
  · intro x d t hx
    by_cases hxn : x = name
    · subst hxn
      rw [hnew, Option.some.injEq, Prod.mk.injEq] at hx
      exact hx.2 ▸ hstands
    · rw [hold x hxn] at hx
      have := h.found x d t hx
      cases t with
      | var type => exact (hvisible x hxn).mpr this
      | label => exact this
      | function params returns => simpa only [Sight.Stands, hfind x hxn] using this
  · intro x hx
    by_cases hxn : x = name
    · subst hxn
      rw [hnew]
      have := hvar hx
      cases symbol with
      | var type => exact ⟨_, type, rfl⟩
      | label => exact absurd this Bool.false_ne_true
      | function params returns => exact absurd this Bool.false_ne_true
    · rw [hold x hxn]
      exact h.seen x ((hvisible x hxn).mp hx)
  · intro x f hf
    by_cases hxn : x = name
    · subst hxn
      exact ⟨⟨id, x⟩, by rw [hnew, hfun f hf]⟩
    · rw [hold x hxn]
      exact h.called x f (by rwa [hfind x hxn] at hf)
  · intro x
    rw [Scopes.taken_eq ho hs', htaken, ← h.taken, Scopes.taken_eq h.ordered hs]
    -- Taken names are those of the scope itself and those of its parent.
    have hparent : ∀ p, s.parent = some p → ss'.taken p x = ss.taken p x := by
      intro p hp
      rw [Scopes.taken, Scopes.taken, hchain p hp]
    simp only [Scope.find?, List.lookup_cons]
    by_cases hxn : x = name
    · subst hxn
      simp only [beq_self_eq_true, Option.isSome_some, Bool.true_or, true_or]
    · simp only [beq_eq_false_iff_ne.mpr hxn, hxn, false_or]
      rcases hp : s.parent with _ | p
      · rfl
      · simp only [hparent p hp]

/-- Declaring a variable. -/
theorem register_var {name type : String} (h : Shows ss id v) (hfree : name ∉ v.taken)
    (hr : ss.register? id name (.var type) = some ss') : Shows ss' id (v.declare [name]) := by
  rcases hvars : v.vars with _ | ⟨scope, outer⟩
  · exact absurd hvars h.vars_ne
  · have hv : v.declare [name] = { v with vars := (scope ++ [name]) :: outer } := by
      simp only [Sight.declare, hvars]
    have hvisible : ∀ x, x ∈ (v.declare [name]).visible ↔ x = name ∨ x ∈ v.visible := by
      intro x
      rw [hv]
      simp only [Sight.visible, hvars, List.flatten_cons, List.mem_append, List.mem_singleton]
      tauto
    refine h.register hr ?_ ?_ (fun _ => rfl) ?_ ?_ ?_ ?_
    · rw [hv]
      exact List.cons_ne_nil _ _
    · exact (hvisible name).mpr (Or.inl rfl)
    · intro f hf
      rw [Sight.functions_declare] at hf
      exact absurd (Sight.mem_taken.mpr (Or.inl (Sight.mem_functionNames hf))) hfree
    · intro x hx
      rw [hvisible x]
      tauto
    · intro x _
      rw [Sight.functions_declare]
    · intro x
      rw [Sight.mem_taken, Sight.mem_taken, hvisible x, Sight.functionNames, Sight.functionNames,
        Sight.functions_declare, Sight.hidden_declare]
      tauto

/-- Declaring a function. -/
theorem register_function {f : FunctionDef} {fs : List FunctionDef} {outer : FunctionScopes}
    (h : Shows ss id v) (hfs : v.functions = fs :: outer) (hfree : f.name ∉ v.taken)
    (hr : ss.register? id f.name (.function (f.params.map (·.type)) (f.returns.map (·.type)))
      = some ss') : Shows ss' id { v with functions := (fs ++ [f]) :: outer } := by
  -- The new function is the one found under its name, as it comes last.
  have hfind : ∀ x, FunctionScopes.find? x ((fs ++ [f]) :: outer)
      = if f.name = x then some f else v.functions.find? x := by
    intro x
    simp only [hfs, FunctionScopes.find?, findFunction?, List.reverse_append, List.reverse_cons,
      List.reverse_nil, List.nil_append, List.singleton_append, List.find?_cons]
    by_cases hx : f.name = x
    · simp only [hx, beq_self_eq_true, if_true]
    · simp only [beq_eq_false_iff_ne.mpr hx, hx, if_false]
  refine h.register hr h.vars_ne ⟨f, ?_, rfl, rfl⟩ ?_ ?_ (fun _ _ => Iff.rfl) ?_ ?_
  · rw [hfind, if_pos rfl]
  -- A visible variable of this name would have it taken.
  · intro hx
    exact absurd (Sight.mem_taken.mpr (Or.inr (Or.inl (show f.name ∈ v.visible from hx)))) hfree
  · intro g hg
    rw [hfind, if_pos rfl] at hg
    rw [Option.some.inj hg]
  · intro x hx
    rw [hfind, if_neg (Ne.symm hx)]
  · intro x
    rw [Sight.mem_taken, Sight.mem_taken]
    simp only [Sight.functionNames, Sight.visible, hfs, List.flatten_cons, List.map_append,
      List.map_cons, List.map_nil, List.mem_append, List.mem_singleton]
    tauto

end Shows

end YulToolchain
