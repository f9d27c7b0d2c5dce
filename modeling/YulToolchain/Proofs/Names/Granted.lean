import YulToolchain.Proofs.Names.Fresh

/-!
# Names Granted Over Many Requests

A supply serves any number of requests. Between them, names can be marked as
used from outside, such as candidates of hints that are asked for later.

Two things are said of the next request, whatever came before it. The search that
has no bound, where a candidate is tried as long as the last one was taken, comes
to an end, and with the very name and number that the bounded search finds. And
the name is unlike all that the supply was told of and all that it granted. The
names in use are those at the start, those marked and those granted, and each
request keeps that.

## Main definitions

* `NameSupply.Settles`: The search without a bound.
* `NameSupply.answer`: What is granted in answer to a list of requests.
* `NameSupply.Unclaimed`: What makes a name free after a list of requests.

## Theorems

* `NameSupply.settles_iff`: The search without a bound ends, where the bounded one
  does.
* `NameSupply.mem_used_answer`: The names in use after a list of requests.
* `NameSupply.granted_names_are_unclaimed`: After any requests, the next name is
  found, is free, and is the hint if that is free.
-/

namespace YulToolchain

namespace NameSupply

/-- What is asked of a supply: a name after a hint, or never to grant a name. -/
inductive Request where
  | grant (hint : String)
  | mark (name : String)
deriving Repr, DecidableEq

/-- The search for a name after a hint, without a bound. A name is tried, where
    `n` was the last number, and the search settles on a name and a number. -/
inductive Settles (s : NameSupply) (hint : String) : String → Nat → String → Nat → Prop
  | free {name : String} {n : Nat} :
      s.unavailable name = false → Settles s hint name n name n
  | taken {name found : String} {n last : Nat} :
      s.unavailable name = true →
      Settles s hint (candidate hint (n + 1)) (n + 1) found last →
      Settles s hint name n found last

/-- The names granted in answer to requests, and the supply afterwards. -/
def answer (s : NameSupply) : List Request → List String × NameSupply
  | [] => ([], s)
  | .grant hint :: rest =>
      let (names, last) := (s.next hint).2.answer rest
      ((s.next hint).1 :: names, last)
  | .mark name :: rest => (s.markUsed name).answer rest

/-- A name is free after requests to a supply that avoids the names `used`: it
    could be a name, the dialect does not reserve it, and nobody has it. -/
structure Unclaimed (d : Dialect) (used : List String) (before : List Request) (name : String) :
    Prop where
  nonempty : name ≠ ""
  unreserved : d.reserved name = false
  unused : name ∉ used
  unmarked : Request.mark name ∉ before
  ungranted : name ∉ ((ofUsed d used).answer before).1

section Search

variable {s : NameSupply} {hint : String}

/-- A search settles on one name only. -/
theorem Settles.unique {name found found' : String} {n last last' : Nat}
    (h : s.Settles hint name n found last) (h' : s.Settles hint name n found' last') :
    found = found' ∧ last = last' := by
  induction h with
  | free hfree =>
      cases h' with
      | free => exact ⟨rfl, rfl⟩
      | taken htaken => exact absurd (htaken.symm.trans hfree) Bool.noConfusion
  | taken htaken _ ih =>
      cases h' with
      | free hfree => exact absurd (htaken.symm.trans hfree) Bool.noConfusion
      | taken _ hrest => exact ih hrest

/-- The search without a bound comes upon whatever a bounded search found, if
    that is available. -/
theorem settles_of_search : ∀ (tries n : Nat) {name : String}, s.unavailable name = true →
    s.unavailable (candidate hint (s.search hint tries n)) = false →
    s.Settles hint name n (candidate hint (s.search hint tries n)) (s.search hint tries n)
  | 0, _, _, htaken, hfound => .taken htaken (.free hfound)
  | tries + 1, n, _, htaken, hfound => by
      rw [search] at hfound ⊢
      by_cases h : s.unavailable (candidate hint (n + 1)) = true
      · rw [if_pos h] at hfound ⊢
        exact .taken htaken (settles_of_search tries (n + 1) h hfound)
      · rw [if_neg h] at hfound ⊢
        exact .taken htaken (.free hfound)

variable (s hint)

/-- The name that is given is settled by the search. -/
theorem settles_next : s.Settles hint hint s.counter (s.next hint).1 (s.next hint).2.counter := by
  unfold next
  by_cases h : s.unavailable hint = true
  · rw [if_pos h]
    exact settles_of_search s.tries s.counter h (search_available s hint s.counter)
  · rw [if_neg h]
    exact .free (Bool.not_eq_true _ ▸ h)

/-- The search without a bound ends, where the bounded one does. -/
theorem settles_iff (found : String) (last : Nat) :
    s.Settles hint hint s.counter found last ↔
      found = (s.next hint).1 ∧ last = (s.next hint).2.counter := by
  refine ⟨fun h => h.unique (settles_next s hint), ?_⟩
  rintro ⟨rfl, rfl⟩
  exact settles_next s hint

theorem next_eq_hint (h : s.unavailable hint = false) : (s.next hint).1 = hint := by
  unfold next
  rw [if_neg (Bool.not_eq_true _ ▸ h)]

end Search

section Requests

/-- No request changes the dialect. -/
theorem dialect_answer (requests : List Request) : ∀ s : NameSupply,
    (s.answer requests).2.dialect = s.dialect := by
  induction requests with
  | nil => exact fun _ => rfl
  | cons request rest ih =>
      intro s
      cases request with
      | grant hint => exact (ih _).trans (dialect_next s hint)
      | mark name => exact ih _

/-- After requests, the names in use are those in use before, those marked and
    those granted. -/
theorem mem_used_answer {name : String} (requests : List Request) : ∀ s : NameSupply,
    name ∈ (s.answer requests).2.used ↔
      name ∈ s.used ∨ Request.mark name ∈ requests ∨ name ∈ (s.answer requests).1 := by
  induction requests with
  | nil => exact fun s => by simp only [answer, List.not_mem_nil, or_false]
  | cons request rest ih =>
      intro s
      cases request with
      | grant hint =>
          refine (ih (s.next hint).2).trans ?_
          simp only [used_next, answer, List.mem_cons, reduceCtorEq, false_or]
          tauto
      | mark marked =>
          refine (ih (s.markUsed marked)).trans ?_
          simp only [markUsed, answer, List.mem_cons, Request.mark.injEq]
          tauto

/-- After some requests, a name is available exactly if nothing claims it. -/
theorem unavailable_answer (d : Dialect) (used : List String) (before : List Request)
    (name : String) :
    ((ofUsed d used).answer before).2.unavailable name = false ↔ Unclaimed d used before name := by
  rw [unavailable_eq_false, dialect_answer, mem_used_answer before, not_or, not_or]
  exact ⟨fun ⟨hempty, ⟨hused, hmarked, hgranted⟩, hreserved⟩ =>
      ⟨hempty, hreserved, hused, hmarked, hgranted⟩,
    fun ⟨hempty, hreserved, hused, hmarked, hgranted⟩ =>
      ⟨hempty, ⟨hused, hmarked, hgranted⟩, hreserved⟩⟩

/-- Whatever was asked of a supply before, the next search for a name ends. It
    ends with a name that is free, and with the hint just if that is free. -/
theorem granted_names_are_unclaimed (d : Dialect) (used : List String) (before : List Request)
    (hint : String) :
    let s := ((ofUsed d used).answer before).2
    (∀ name last, s.Settles hint hint s.counter name last ↔
      name = (s.next hint).1 ∧ last = (s.next hint).2.counter) ∧
    Unclaimed d used before (s.next hint).1 ∧
    ((s.next hint).1 = hint ↔ Unclaimed d used before hint) := by
  intro s
  have hfree : Unclaimed d used before (s.next hint).1 :=
    (unavailable_answer d used before _).mp (next_available s hint)
  refine ⟨settles_iff s hint, hfree, fun h => h ▸ hfree, fun h => ?_⟩
  exact next_eq_hint s hint ((unavailable_answer d used before hint).mpr h)

-- A number that one hint used up is skipped for the others, and so is a candidate
-- that was asked for as a hint.
example : ((ofUsed .strictAssembly ["foo"]).answer
    [.grant "bar_2", .grant "foo", .grant "bar", .mark "foo_3", .grant "bar", .grant "foo"]).1
      = ["bar_2", "foo_1", "bar", "bar_3", "foo_4"] := by
  decide +kernel

end Requests

end NameSupply

end YulToolchain
