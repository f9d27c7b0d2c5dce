import YulToolchain.Rule.Arithmetic
import Mathlib.Tactic.FinCases

/-!
# What the Rules Say

Every rule of the table is an identity of the arithmetic on words.

A pattern is read as a term: its letters stand for words, and its value is computed with the
same function that runs the instructions. A rule is an identity if both of its sides have
the same value for all words. The side that replaces a match may also be the value of the
match itself, which is how a rule folds constants.

Besides the value, what matters is which operands are left. A rule that keeps its operands
may be applied to anything, since the operands are evaluated in the same order as before.
The rules without that property are the ones that are marked.

## Main definitions

* `Pattern.denotes`, `Action.denotes`: The value of the two sides of a rule.
* `Rule.Sound`: A rule is an identity.
* `Surround`, `Pattern.around`, `Action.around`: The rules that keep their one operand, as
  layers of instructions around it.

## Theorems

* `arithmeticRules_sound`: Every rule of the table is an identity.
* `arithmeticRules_operands`: A rule that is not marked keeps all operands.
* `arithmeticRules_cases`: What the rules that are not marked look like.
-/

namespace YulToolchain

mutual

/-- The value of a match, given those of what the letters stand for. -/
def Pattern.denotes (ρ : Char → Word) : Pattern → Option Word
  | .any letter => some (ρ letter)
  | .constant letter => some (ρ letter)
  | .number w => some w
  | .op i args => (Pattern.denotesAll ρ args).bind i.evaluate

/-- The values of matches. -/
def Pattern.denotesAll (ρ : Char → Word) : List Pattern → Option (List Word)
  | [] => some []
  | p :: rest => (p.denotes ρ).bind fun w => (Pattern.denotesAll ρ rest).map (w :: ·)

end

mutual

/-- The value of a replacement, given that of the match and those of what the letters stand
    for. -/
def Action.denotes (ρ : Char → Word) (matched : Word) : Action → Option Word
  | .keep letter => some (ρ letter)
  | .number w => some w
  | .fold => some matched
  | .op i args => (Action.denotesAll ρ matched args).bind i.evaluate

/-- The values of replacements. -/
def Action.denotesAll (ρ : Char → Word) (matched : Word) : List Action → Option (List Word)
  | [] => some []
  | a :: rest =>
    (a.denotes ρ matched).bind fun w => (Action.denotesAll ρ matched rest).map (w :: ·)

end

mutual

/-- The operands of a match that may be anything, in order. -/
def Pattern.operands : Pattern → List Char
  | .any letter => [letter]
  | .constant _ => []
  | .number _ => []
  | .op _ args => Pattern.operandsAll args

def Pattern.operandsAll : List Pattern → List Char
  | [] => []
  | p :: rest => p.operands ++ Pattern.operandsAll rest

end

mutual

/-- The operands that are left in a replacement, in order. -/
def Action.operands : Action → List Char
  | .keep letter => [letter]
  | .number _ => []
  | .fold => []
  | .op _ args => Action.operandsAll args

def Action.operandsAll : List Action → List Char
  | [] => []
  | a :: rest => a.operands ++ Action.operandsAll rest

end

mutual

/-- The instructions of a replacement. -/
def Action.ops : Action → List Instruction
  | .keep _ => []
  | .number _ => []
  | .fold => []
  | .op i args => i :: Action.opsAll args

def Action.opsAll : List Action → List Instruction
  | [] => []
  | a :: rest => a.ops ++ Action.opsAll rest

end

/-- A rule is an identity: whatever words its letters stand for, a match has a value, and
    the replacement has the same. -/
def Rule.Sound (r : Rule) : Prop :=
  ∀ ρ : Char → Word, ∃ w, r.pattern.denotes ρ = some w ∧ r.action.denotes ρ w = some w

section Identities

/-- A power with no exponent bits set is one. -/
theorem Word.powBits_zero : ∀ (bits : Nat) (base : Word), Word.powBits base bits 0 = 1
  | 0, _ => rfl
  | bits + 1, base => by
      rw [Word.powBits, if_neg (by decide)]
      exact Word.powBits_zero bits (base * base)

theorem Word.pow_zero (a : Word) : Word.pow a 0 = 1 := Word.powBits_zero 256 a

/-- The lowest bit takes the base, and no bit above it is set. -/
theorem Word.pow_one (a : Word) : Word.pow a 1 = a := by
  show Word.powBits a (255 + 1) 1 = a
  rw [Word.powBits, if_pos (by decide)]
  show a * Word.powBits (a * a) 255 0 = a
  rw [Word.powBits_zero]
  exact BitVec.mul_one a

theorem Word.ofBool_beq_zero (b : Bool) : (Word.ofBool b == 0) = !b := by
  cases b <;> rfl

end Identities

namespace Rule

variable {i : Instruction} {args : List Pattern}

theorem keeps_sound
    (h : ∀ ρ : Char → Word, (Pattern.denotesAll ρ args).bind i.evaluate = some (ρ 'X')) :
    (keeps i args).Sound := fun ρ => ⟨ρ 'X', h ρ, rfl⟩

theorem absorbs_sound {k : Nat} (h : ∀ ρ : Char → Word,
    (Pattern.denotesAll ρ args).bind i.evaluate = some (BitVec.ofNat 256 k)) :
    (absorbs i args k).Sound := fun ρ => ⟨BitVec.ofNat 256 k, h ρ, rfl⟩

theorem merges_sound (h : ∀ w : Word, i.evaluate [w, w] = some w) : (merges i).Sound :=
  fun ρ => ⟨ρ 'X', h (ρ 'X'), rfl⟩

/-- Folding is computing the match, so all there is to show is that it has a value. -/
theorem folding_sound : ∀ i ∈ foldable, (folding i).Sound := by
  have hvalue : ∀ i ∈ foldable, ∀ ρ : Char → Word,
      ((folding i).pattern.denotes ρ).isSome = true := by
    intro i hi ρ
    fin_cases hi <;> rfl
  intro i hi ρ
  rcases Option.isSome_iff_exists.mp (hvalue i hi ρ) with ⟨w, hw⟩
  exact ⟨w, hw, rfl⟩

/-- The rules for neutral operands are sound. -/
theorem neutral_sound : ∀ r ∈ neutral, r.Sound := by
  have hshift : (BitVec.ofNat 256 0).toNat < 256 := by decide
  simp only [neutral, List.forall_mem_cons, List.not_mem_nil, false_implies, implies_true,
    and_true]
  -- One fact of words for each rule, in the order of the list.
  refine ⟨?_, ?_, ?_, ?_, ?_, ?_, ?_, ?_, ?_, ?_, ?_, ?_, ?_, ?_, ?_⟩
  · exact keeps_sound fun ρ => congrArg some (BitVec.add_zero (ρ 'X'))
  · exact keeps_sound fun ρ => congrArg some (BitVec.zero_add (ρ 'X'))
  · exact keeps_sound fun ρ => congrArg some (BitVec.sub_zero (ρ 'X'))
  · exact keeps_sound fun ρ => congrArg some (BitVec.mul_one (ρ 'X'))
  · exact keeps_sound fun ρ => congrArg some (BitVec.one_mul (ρ 'X'))
  · exact keeps_sound fun ρ => congrArg some ((if_neg (by decide)).trans BitVec.udiv_one)
  · exact keeps_sound fun ρ => congrArg some BitVec.or_zero
  · exact keeps_sound fun ρ => congrArg some BitVec.zero_or
  · exact keeps_sound fun ρ => congrArg some BitVec.xor_zero
  · exact keeps_sound fun ρ => congrArg some BitVec.zero_xor
  · exact keeps_sound fun ρ => congrArg some ((if_pos hshift).trans (BitVec.shiftLeft_zero _))
  · exact keeps_sound fun ρ => congrArg some ((if_pos hshift).trans (BitVec.ushiftRight_zero _))
  · exact keeps_sound fun ρ => congrArg some (Word.pow_one (ρ 'X'))
  · exact keeps_sound fun ρ => congrArg some BitVec.and_allOnes
  · exact keeps_sound fun ρ => congrArg some BitVec.allOnes_and

/-- The rules for absorbing operands are sound. -/
theorem absorbing_sound : ∀ r ∈ absorbing, r.Sound := by
  simp only [absorbing, List.forall_mem_cons, List.not_mem_nil, false_implies, implies_true,
    and_true]
  refine ⟨?_, ?_, ?_, ?_, ?_, ?_, ?_, ?_, ?_⟩
  · exact absorbs_sound fun ρ => congrArg some BitVec.mul_zero
  · exact absorbs_sound fun ρ => congrArg some BitVec.zero_mul
  · exact absorbs_sound fun ρ => congrArg some (if_pos rfl)
  · refine absorbs_sound fun ρ => congrArg some ?_
    exact (ite_congr rfl (fun _ => rfl) fun _ => BitVec.zero_udiv).trans (ite_self _)
  · exact absorbs_sound fun ρ => congrArg some (if_pos rfl)
  · exact absorbs_sound fun ρ => congrArg some ((if_neg (by decide)).trans BitVec.umod_one)
  · exact absorbs_sound fun ρ => congrArg some BitVec.and_zero
  · exact absorbs_sound fun ρ => congrArg some BitVec.zero_and
  · exact absorbs_sound fun ρ => congrArg some (Word.pow_zero (ρ 'X'))

/-- The rules for equal operands are sound. -/
theorem repeated_sound : ∀ r ∈ repeated, r.Sound := by
  have hlt : ∀ w : Word, Word.ofBool (w < w) = 0 := fun w =>
    congrArg Word.ofBool (decide_eq_false (BitVec.lt_irrefl w))
  have hslt : ∀ w : Word, Word.ofBool (Word.slt w w) = 0 := fun w =>
    congrArg Word.ofBool (decide_eq_false (BitVec.lt_irrefl (w ^^^ Word.signBit)))
  simp only [repeated, List.forall_mem_cons, List.not_mem_nil, false_implies, implies_true,
    and_true]
  refine ⟨?_, ?_, ?_, ?_, ?_, ?_, ?_, ?_, ?_⟩
  · exact absorbs_sound fun ρ => congrArg some (BitVec.sub_self (ρ 'X'))
  · exact absorbs_sound fun ρ => congrArg some BitVec.xor_self
  · exact absorbs_sound fun ρ => congrArg some (hlt (ρ 'X'))
  · exact absorbs_sound fun ρ => congrArg some (hlt (ρ 'X'))
  · exact absorbs_sound fun ρ => congrArg some (hslt (ρ 'X'))
  · exact absorbs_sound fun ρ => congrArg some (hslt (ρ 'X'))
  · exact absorbs_sound fun ρ => congrArg (some ∘ Word.ofBool) (beq_self_eq_true (ρ 'X'))
  · exact merges_sound fun w => congrArg some BitVec.and_self
  · exact merges_sound fun w => congrArg some BitVec.or_self

/-- The rules for negations are sound. -/
theorem negations_sound : ∀ r ∈ negations, r.Sound := by
  simp only [negations, List.forall_mem_cons, List.not_mem_nil, false_implies, implies_true,
    and_true]
  refine ⟨keeps_sound fun ρ => congrArg some BitVec.not_not, fun ρ => ?_⟩
  refine ⟨Word.ofBool (ρ 'X' == 0), congrArg some ?_, rfl⟩
  rw [Word.ofBool_beq_zero, Word.ofBool_beq_zero, Bool.not_not]

end Rule

/-- Every rule of the table is an identity. -/
theorem arithmeticRules_sound : ∀ r ∈ arithmeticRules, r.Sound := by
  intro r hr
  simp only [arithmeticRules, List.mem_append, List.mem_map] at hr
  rcases hr with (((⟨i, hi, rfl⟩ | hr) | hr) | hr) | hr
  · exact Rule.folding_sound i hi
  · exact Rule.neutral_sound r hr
  · exact Rule.absorbing_sound r hr
  · exact Rule.repeated_sound r hr
  · exact Rule.negations_sound r hr

/-- A rule that is not marked keeps all operands, in their order. -/
theorem arithmeticRules_operands : ∀ r ∈ arithmeticRules, r.dropsOperand = false →
    r.action.operands = r.pattern.operands := by decide

/-- Every rule is one for an instruction. -/
theorem arithmeticRules_op : ∀ r ∈ arithmeticRules, ∃ i args, r.pattern = .op i args := by
  have hop : ∀ r ∈ arithmeticRules, (match r.pattern with
    | .op _ _ => true
    | _ => false) = true := by decide
  intro r hr
  have h := hop r hr
  cases hp : r.pattern with
  | op i args => exact ⟨i, args, rfl⟩
  | _ =>
      rw [hp] at h
      exact absurd h Bool.noConfusion

/-- A replacement has no other instruction than the match. -/
theorem arithmeticRules_ops : ∀ r ∈ arithmeticRules, ∀ i ∈ r.action.ops,
    ∃ args, r.pattern = .op i args := by
  have hops : ∀ r ∈ arithmeticRules, (match r.pattern with
    | .op i _ => r.action.ops.all (· == i)
    | _ => false) = true := by decide
  intro r hr i hi
  have h := hops r hr
  cases hp : r.pattern with
  | op j args =>
      rw [hp] at h
      rw [eq_of_beq (List.all_eq_true.mp h i hi)]
      exact ⟨args, rfl⟩
  | _ =>
      rw [hp] at h
      exact absurd h Bool.noConfusion

/-- A layer around an operand: an instruction whose other arguments are numbers. -/
structure Surround where
  op : Instruction
  left : List Word
  right : List Word

namespace Surround

/-- The value of a layer, given that of the operand. -/
def evaluate (f : Surround) (w : Word) : Option Word := f.op.evaluate (f.left ++ w :: f.right)

/-- The value of some layers, the outermost first. -/
def evaluateAll : List Surround → Word → Option Word
  | [], w => some w
  | f :: rest, w => (evaluateAll rest w).bind f.evaluate

end Surround

/-- The pattern for layers around an operand. -/
def Pattern.around (letter : Char) : List Surround → Pattern
  | [] => .any letter
  | f :: rest => .op f.op (f.left.map .number ++ around letter rest :: f.right.map .number)

/-- The replacement that is layers around an operand. -/
def Action.around (letter : Char) : List Surround → Action
  | [] => .keep letter
  | f :: rest => .op f.op (f.left.map .number ++ around letter rest :: f.right.map .number)

section Around

variable {ρ : Char → Word} {letter : Char}

/-- Number patterns denote their numbers. -/
theorem Pattern.denotesAll_numbers (right : List Word) :
    Pattern.denotesAll ρ (right.map .number) = some right := by
  induction right with
  | nil => rfl
  | cons w rest ih => simp only [List.map_cons, denotesAll, denotes, ih, Option.bind_some,
      Option.map_some]

/-- A pattern between numbers denotes a list around its word. -/
theorem Pattern.denotesAll_between (p : Pattern) (left right : List Word) :
    Pattern.denotesAll ρ (left.map .number ++ p :: right.map .number)
      = (p.denotes ρ).map fun w => left ++ w :: right := by
  induction left with
  | nil =>
      simp only [List.map_nil, List.nil_append, denotesAll, denotesAll_numbers, Option.map_some]
      cases p.denotes ρ <;> rfl
  | cons w rest ih =>
      simp only [List.map_cons, List.cons_append, denotesAll, denotes, ih, Option.bind_some,
        Option.map_map, Function.comp_def]

/-- A surrounded operand denotes what the instructions around it make of it. -/
theorem Pattern.denotes_around (frames : List Surround) :
    (Pattern.around letter frames).denotes ρ = Surround.evaluateAll frames (ρ letter) := by
  induction frames with
  | nil => rfl
  | cons f rest ih =>
      rw [around, denotes, denotesAll_between, ih, Surround.evaluateAll, Option.bind_map]
      rfl

variable {matched : Word}

/-- Number actions denote their numbers. -/
theorem Action.denotesAll_numbers (right : List Word) :
    Action.denotesAll ρ matched (right.map .number) = some right := by
  induction right with
  | nil => rfl
  | cons w rest ih => simp only [List.map_cons, denotesAll, denotes, ih, Option.bind_some,
      Option.map_some]

/-- An action between numbers denotes a list around its word. -/
theorem Action.denotesAll_between (a : Action) (left right : List Word) :
    Action.denotesAll ρ matched (left.map .number ++ a :: right.map .number)
      = (a.denotes ρ matched).map fun w => left ++ w :: right := by
  induction left with
  | nil =>
      simp only [List.map_nil, List.nil_append, denotesAll, denotesAll_numbers, Option.map_some]
      cases a.denotes ρ matched <;> rfl
  | cons w rest ih =>
      simp only [List.map_cons, List.cons_append, denotesAll, denotes, ih, Option.bind_some,
        Option.map_map, Function.comp_def]

/-- A surrounded result denotes what the instructions around it make of it. -/
theorem Action.denotes_around (frames : List Surround) :
    (Action.around letter frames).denotes ρ matched = Surround.evaluateAll frames (ρ letter) := by
  induction frames with
  | nil => rfl
  | cons f rest ih =>
      rw [around, denotes, denotesAll_between, ih, Surround.evaluateAll, Option.bind_map]
      rfl

end Around

/-- A rule that is not marked folds constants, or has layers around one operand on both
    sides. -/
theorem arithmeticRules_cases : ∀ r ∈ arithmeticRules, r.dropsOperand = false →
    (∃ i ∈ foldable, r = Rule.folding i) ∨ ∃ frames frames' : List Surround,
      r.pattern = .around 'X' frames ∧ r.action = .around 'X' frames' := by
  have hneutral : ∀ r ∈ Rule.neutral, ∃ frames frames' : List Surround,
      r.pattern = .around 'X' frames ∧ r.action = .around 'X' frames' := by
    -- The constant stands on the right or on the left.
    have hright : ∀ i (w : Word), ∃ frames frames' : List Surround,
        (Rule.keeps i [Rule.x, .number w]).pattern = .around 'X' frames ∧
          (Rule.keeps i [Rule.x, .number w]).action = .around 'X' frames' :=
      fun i w => ⟨[⟨i, [], [w]⟩], [], rfl, rfl⟩
    have hleft : ∀ i (w : Word), ∃ frames frames' : List Surround,
        (Rule.keeps i [.number w, Rule.x]).pattern = .around 'X' frames ∧
          (Rule.keeps i [.number w, Rule.x]).action = .around 'X' frames' :=
      fun i w => ⟨[⟨i, [w], []⟩], [], rfl, rfl⟩
    simp only [Rule.neutral, List.forall_mem_cons, List.not_mem_nil, false_implies, implies_true,
      and_true]
    exact ⟨hright _ _, hleft _ _, hright _ _, hright _ _, hleft _ _, hright _ _, hright _ _,
      hleft _ _, hright _ _, hleft _ _, hleft _ _, hleft _ _, hright _ _, hright _ _, hleft _ _⟩
  -- The other groups drop an operand.
  have habsorbing : ∀ r ∈ Rule.absorbing, r.dropsOperand = true := by decide
  have hrepeated : ∀ r ∈ Rule.repeated, r.dropsOperand = true := by decide
  intro r hr hkeeps
  simp only [arithmeticRules, List.mem_append, List.mem_map] at hr
  rcases hr with (((⟨i, hi, rfl⟩ | hr) | hr) | hr) | hr
  · exact .inl ⟨i, hi, rfl⟩
  · exact .inr (hneutral r hr)
  · rw [habsorbing r hr] at hkeeps
    exact absurd hkeeps Bool.noConfusion
  · rw [hrepeated r hr] at hkeeps
    exact absurd hkeeps Bool.noConfusion
  -- The negations unwrap an operand two or three times.
  · refine .inr ?_
    simp only [Rule.negations, List.mem_cons, List.not_mem_nil, or_false] at hr
    rcases hr with rfl | rfl
    · exact ⟨[⟨.not, [], []⟩, ⟨.not, [], []⟩], [], rfl, rfl⟩
    · exact ⟨[⟨.iszero, [], []⟩, ⟨.iszero, [], []⟩, ⟨.iszero, [], []⟩], [⟨.iszero, [], []⟩],
        rfl, rfl⟩

end YulToolchain
