import YulToolchain.Machine.Evaluate
import Mathlib.Tactic.Common
import Mathlib.Tactic.NormNum
import Mathlib.Tactic.Ring

/-!
# Words as Numbers

What the pure instructions compute, in terms of numbers.

A word stands for a natural number, and for an integer in two's complement, which is
`BitVec.toInt`. The machine has only the unsigned operations on words. What it builds from
them, out of magnitudes, flipped sign bits, masks and complements, is one operation on
integers each time, and its result modulo `2^256`.

The proofs go through the signed operations of bit vectors, so that each construction is
dealt with once and what follows from it is in the library.

## Theorems

* `Word.sdiv_eq`, `Word.smod_eq`: Division by magnitudes is signed division.
* `Word.slt_eq`: Flipping the sign bits turns the signed order into the unsigned one.
* `Word.signExtend_eq`: Masking above a bit is sign extension.
* `Word.sar_eq`: Shifting a complement is an arithmetic shift.
* `Word.powBits_eq_ofNat`: Repeated squaring is the power.
* `Instruction.evaluate_arithmetic`: Pure instructions as operations on numbers.
-/

namespace YulToolchain

namespace Word

/-- A word is written in as many bytes as are asked for. -/
@[simp]
theorem length_bytesOfNat : ∀ count n : Nat, (bytesOfNat count n).length = count
  | 0, _ => rfl
  | count + 1, n => by
      rw [bytesOfNat, List.length_append, length_bytesOfNat count]
      rfl

section Signed

variable (a b : Word)

theorem isNegative_eq : a.isNegative = a.msb := (BitVec.msb_eq_getLsbD_last a).symm

/-- The quotient of the magnitudes has the sign that is missing. -/
theorem sdiv_eq : sdiv a b = BitVec.sdiv a b := by
  rw [BitVec.sdiv_eq, sdiv]
  by_cases hb : b = 0
  · rw [if_pos hb, hb]
    cases a.msb <;> simp
  · simp only [if_neg hb, magnitude, isNegative_eq]
    cases a.msb <;> cases b.msb <;> rfl

/-- The remainder of the magnitudes takes the sign of the dividend. -/
theorem smod_eq : smod a b = if b = 0 then 0 else BitVec.srem a b := by
  rw [BitVec.srem_eq, smod]
  by_cases hb : b = 0
  · rw [if_pos hb, if_pos hb]
  · simp only [if_neg hb, magnitude, isNegative_eq]
    cases a.msb <;> cases b.msb <;> rfl

theorem toNat_signBit : signBit.toNat = 2 ^ 255 := by decide

/-- Flipping the sign bit moves all signed numbers up by half the range. -/
theorem toNat_flip : ((a ^^^ signBit).toNat : Int) = a.toInt + 2 ^ 255 := by
  have hlow : (a.toNat ^^^ 2 ^ 255) % 2 ^ 255 = a.toNat % 2 ^ 255 := by
    rw [Nat.xor_mod_two_pow, Nat.mod_self, Nat.xor_zero]
  have hhigh : (a.toNat ^^^ 2 ^ 255) / 2 ^ 255 = a.toNat / 2 ^ 255 ^^^ 1 := by
    rw [Nat.xor_div_two_pow, Nat.div_self (by decide)]
  have hlt := a.isLt
  rw [BitVec.toInt_eq_toNat_cond, BitVec.toNat_xor, toNat_signBit]
  -- The highest bit is all that is above `2^255`, and flipping it is adding or taking it away.
  by_cases hneg : a.toNat < 2 ^ 255
  · rw [Nat.div_eq_of_lt hneg] at hhigh
    rw [if_pos (by omega)]
    have : (0 ^^^ 1 : Nat) = 1 := rfl
    omega
  · have hone : a.toNat / 2 ^ 255 = 1 := by omega
    rw [hone] at hhigh
    rw [if_neg (by omega)]
    have : (1 ^^^ 1 : Nat) = 0 := rfl
    omega

/-- The comparison with signs compares the integers that words stand for. -/
theorem slt_eq : slt a b = decide (a.toInt < b.toInt) := by
  have ha := toNat_flip a
  have hb := toNat_flip b
  rw [slt, decide_eq_decide, BitVec.lt_def]
  omega

end Signed

section Bits

variable (k shift value : Word)

/-- A mask of the lowest bits as a number. -/
theorem toNat_mask {bit : Nat} (hbit : bit < 255) :
    ((1 : Word) <<< (bit + 1) - 1).toNat = 2 ^ (bit + 1) - 1 := by
  have hlt : 2 ^ (bit + 1) < 2 ^ 256 := Nat.pow_lt_pow_right (by decide) (by omega)
  have hshift : ((1 : Word) <<< (bit + 1)).toNat = 2 ^ (bit + 1) := by
    rw [BitVec.toNat_shiftLeft, Nat.shiftLeft_eq, show (1 : Word).toNat = 1 from rfl, Nat.one_mul,
      Nat.mod_eq_of_lt hlt]
  have hpos : 0 < 2 ^ (bit + 1) := Nat.two_pow_pos _
  rw [BitVec.toNat_sub, hshift, show (1 : Word).toNat = 1 from rfl]
  omega

/-- A mask has all bits up to one. -/
theorem getLsbD_mask {bit : Nat} (hbit : bit < 255) (i : Nat) :
    ((1 : Word) <<< (bit + 1) - 1).getLsbD i = decide (i ≤ bit) := by
  rw [BitVec.getLsbD, toNat_mask hbit, Nat.testBit_two_pow_sub_one, decide_eq_decide]
  omega

/-- The bit with the sign is repeated in all bits above it. -/
theorem getLsbD_signExtend {bit : Nat} (hbit : bit < 255) (i : Nat) :
    (if value.getLsbD bit then value ||| ~~~((1 : Word) <<< (bit + 1) - 1)
      else value &&& ((1 : Word) <<< (bit + 1) - 1)).getLsbD i
      = (decide (i < 256) && value.getLsbD (min i bit)) := by
  -- Bits beyond the word are zero on both sides.
  by_cases hi : i < 256
  · have hmask := getLsbD_mask hbit i
    cases hsign : value.getLsbD bit with
    -- The bits above the sign are filled with ones.
    | true =>
        rw [if_pos rfl, BitVec.getLsbD_or, BitVec.getLsbD_not, hmask]
        by_cases hle : i ≤ bit
        · simp [hi, hle]
        · simp [hi, hle, Nat.min_eq_right (Nat.le_of_not_le hle), hsign]
    | false =>
        -- The bits above the sign are erased.
        rw [if_neg Bool.false_ne_true, BitVec.getLsbD_and, hmask]
        by_cases hle : i ≤ bit
        · simp [hi, hle]
        · simp [hle, Nat.min_eq_right (Nat.le_of_not_le hle), hsign]
  · rw [BitVec.getLsbD_of_ge _ i (Nat.le_of_not_lt hi)]
    simp [hi]

/-- The sign is extended from the first bit of the byte that is counted from the right. -/
theorem signExtend_eq : signExtend k value
    = if k.toNat < 31 then (value.setWidth (k.toNat * 8 + 8)).signExtend 256 else value := by
  rw [signExtend]
  by_cases hk : k.toNat < 31
  · rw [if_pos hk, if_neg (Nat.not_le.mpr hk)]
    refine BitVec.eq_of_getLsbD_eq fun i hi => ?_
    have hbit : k.toNat * 8 + 7 < 255 := by omega
    have hextend := getLsbD_signExtend value hbit i
    refine hextend.trans ?_
    rw [BitVec.getLsbD_signExtend, BitVec.msb_setWidth]
    by_cases hle : i < k.toNat * 8 + 8
    · simp [hi, hle, Nat.min_eq_left (Nat.le_of_lt_succ hle)]
    · simp [hi, hle, Nat.min_eq_right (by omega : k.toNat * 8 + 7 ≤ i)]
  · rw [if_neg hk, if_pos (Nat.le_of_not_lt hk)]

/-- The arithmetic shift is that of the library, also by more than 255 bits. -/
theorem sar_eq : sar shift value = BitVec.sshiftRight value shift.toNat := by
  rw [sar, isNegative_eq]
  by_cases hshift : shift.toNat < 256
  · rw [if_pos hshift]
    cases hmsb : value.msb with
    | true => exact (BitVec.sshiftRight_eq_of_msb_true hmsb).symm
    | false => exact (BitVec.sshiftRight_eq_of_msb_false hmsb).symm
  · -- Nothing is left but copies of the sign.
    rw [if_neg hshift]
    refine BitVec.eq_of_getLsbD_eq fun i hi => ?_
    have hout : ¬ shift.toNat + i < 256 := by omega
    rw [BitVec.getLsbD_sshiftRight, if_neg hout]
    cases value.msb with
    | true =>
        rw [if_pos rfl, BitVec.getLsbD_allOnes, decide_eq_true hi, decide_eq_false (by omega)]
        rfl
    | false => simp

end Bits

section Numbers

variable (k shift value a b : Word)

/-- A signed number is known by its integer modulo `2^256`. -/
theorem eq_ofInt {w : Word} {n : Int} (h : w.toInt = n.bmod (2 ^ 256)) : w = BitVec.ofInt 256 n :=
  BitVec.eq_of_toInt_eq (h.trans (BitVec.toInt_ofInt n).symm)

theorem sdiv_eq_ofInt : sdiv a b = BitVec.ofInt 256 (a.toInt.tdiv b.toInt) :=
  eq_ofInt (by rw [sdiv_eq, BitVec.toInt_sdiv])

/-- The remainder with signs has the sign of the dividend, and is zero for a zero divisor. -/
theorem smod_eq_ofInt :
    smod a b = if b = 0 then 0 else BitVec.ofInt 256 (a.toInt.tmod b.toInt) := by
  rw [smod_eq]
  refine if_congr Iff.rfl rfl (eq_ofInt ?_)
  rw [← BitVec.toInt_srem, BitVec.toInt_bmod_cancel]

/-- Extending the sign reads the lower bytes as a number with a sign. -/
theorem signExtend_eq_ofInt : signExtend k value = if k.toNat < 31
    then BitVec.ofInt 256 ((value.toNat : Int).bmod (2 ^ (k.toNat * 8 + 8))) else value := by
  rw [signExtend_eq]
  by_cases hk : k.toNat < 31
  · rw [if_pos hk, if_pos hk]
    refine eq_ofInt ?_
    rw [← BitVec.toInt_bmod_cancel, BitVec.toInt_signExtend, BitVec.toInt_setWidth,
      Nat.min_eq_right (by omega), Int.bmod_bmod]
  · rw [if_neg hk, if_neg hk]

theorem sar_eq_ofInt : sar shift value = BitVec.ofInt 256 (value.toInt / 2 ^ shift.toNat) := by
  refine eq_ofInt ?_
  rw [sar_eq, ← BitVec.toInt_bmod_cancel, BitVec.toInt_sshiftRight, Int.shiftRight_eq_div_pow]
  norm_cast

/-- A byte counted from the left, as a number. -/
theorem byteAt_eq_ofNat : byteAt k value = if k.toNat < 32
    then BitVec.ofNat 256 (value.toNat / 256 ^ (31 - k.toNat) % 256) else 0 := by
  have hpow : 2 ^ (8 * (31 - k.toNat)) = 256 ^ (31 - k.toNat) := by
    rw [Nat.pow_mul, show 2 ^ 8 = 256 from rfl]
  rw [byteAt]
  refine if_congr Iff.rfl (BitVec.eq_of_toNat_eq ?_) rfl
  rw [BitVec.toNat_and, BitVec.toNat_ushiftRight, Nat.shiftRight_eq_div_pow, hpow,
    BitVec.toNat_ofNat, show (0xff : Word).toNat = 2 ^ 8 - 1 from rfl,
    Nat.and_two_pow_sub_one_eq_mod]
  omega

/-- A shift to the left multiplies, modulo the size of a word. -/
theorem shl_eq_ofNat : shl shift value = BitVec.ofNat 256 (value.toNat * 2 ^ shift.toNat) := by
  rw [shl]
  refine BitVec.eq_of_toNat_eq ?_
  by_cases hshift : shift.toNat < 256
  · rw [if_pos hshift, BitVec.toNat_shiftLeft, Nat.shiftLeft_eq, BitVec.toNat_ofNat]
  · -- The whole word is moved out.
    rw [if_neg hshift, BitVec.toNat_ofNat]
    have hdvd : 2 ^ 256 ∣ value.toNat * 2 ^ shift.toNat :=
      Dvd.dvd.mul_left (pow_dvd_pow 2 (Nat.le_of_not_lt hshift)) _
    exact (Nat.mod_eq_zero_of_dvd hdvd).symm

/-- A shift to the right divides. -/
theorem shr_eq_ofNat : shr shift value = BitVec.ofNat 256 (value.toNat / 2 ^ shift.toNat) := by
  rw [shr]
  refine BitVec.eq_of_toNat_eq ?_
  have hlt := value.isLt
  by_cases hshift : shift.toNat < 256
  · rw [if_pos hshift, BitVec.toNat_ushiftRight, Nat.shiftRight_eq_div_pow, BitVec.toNat_ofNat,
      Nat.mod_eq_of_lt (Nat.lt_of_le_of_lt (Nat.div_le_self _ _) hlt)]
  · have hzero : value.toNat / 2 ^ shift.toNat = 0 := by
      refine Nat.div_eq_of_lt (Nat.lt_of_lt_of_le hlt ?_)
      exact Nat.pow_le_pow_right (by decide) (Nat.le_of_not_lt hshift)
    rw [if_neg hshift, hzero]
    rfl

/-- Each bit of the exponent squares the base once more. -/
theorem powBits_eq_ofNat : ∀ (bits e : Nat) (base : Word), e < 2 ^ bits →
    powBits base bits e = BitVec.ofNat 256 (base.toNat ^ e) := by
  intro bits
  induction bits with
  | zero =>
      intro e base he
      have : e = 0 := by omega
      rw [this, powBits]
      rfl
  | succ bits ih =>
      intro e base he
      -- The rest is the power for the exponent without its lowest bit.
      have hrest : powBits (base * base) bits (e / 2)
          = BitVec.ofNat 256 (base.toNat ^ (2 * (e / 2))) := by
        rw [ih (e / 2) (base * base) (by omega), Nat.pow_mul]
        refine BitVec.eq_of_toNat_eq ?_
        rw [BitVec.toNat_ofNat, BitVec.toNat_ofNat, BitVec.toNat_mul, ← Nat.pow_mod, Nat.pow_two]
      simp only [powBits, hrest]
      by_cases hodd : e % 2 = 1
      · rw [if_pos hodd]
        refine BitVec.eq_of_toNat_eq ?_
        rw [BitVec.toNat_mul, BitVec.toNat_ofNat, BitVec.toNat_ofNat, Nat.mul_mod_mod,
          ← Nat.pow_succ']
        congr 2
        omega
      · rw [if_neg hodd]
        congr 2
        omega

theorem pow_eq_ofNat : pow a b = BitVec.ofNat 256 (a.toNat ^ b.toNat) :=
  powBits_eq_ofNat 256 b.toNat a b.isLt

end Numbers

end Word

/-- Pure instructions are operations on numbers, with their results modulo `2^256`: signed
    division rounds toward zero and leaves a remainder with the sign of the dividend, signed
    comparisons compare integers, an arithmetic shift to the right is division rounded down,
    sign extension repeats one bit of the word in all bits above it, a byte is a digit to the
    base 256, the other shifts multiply and divide by a power of two, and sums, products and
    powers are taken before they are reduced. -/
theorem Instruction.evaluate_arithmetic (a b m k shift : Word) :
    Instruction.sdiv.evaluate [a, b]
      = some (if b = 0 then 0 else BitVec.ofInt 256 (a.toInt.tdiv b.toInt)) ∧
    Instruction.smod.evaluate [a, b]
      = some (if b = 0 then 0 else BitVec.ofInt 256 (a.toInt.tmod b.toInt)) ∧
    Instruction.slt.evaluate [a, b] = some (if a.toInt < b.toInt then 1 else 0) ∧
    Instruction.sgt.evaluate [a, b] = some (if b.toInt < a.toInt then 1 else 0) ∧
    Instruction.sar.evaluate [shift, a]
      = some (BitVec.ofInt 256 (a.toInt / 2 ^ shift.toNat)) ∧
    (∃ w, Instruction.signextend.evaluate [k, a] = some w ∧
      w = (if k.toNat < 31 then BitVec.ofInt 256 ((a.toNat : Int).bmod (2 ^ (k.toNat * 8 + 8)))
        else a) ∧
      ∀ i : Fin 256, w.getLsbD i = a.getLsbD
        (if k.toNat < 31 then min i (k.toNat * 8 + 7) else i)) ∧
    Instruction.byte.evaluate [k, a] = some (if k.toNat < 32
      then BitVec.ofNat 256 (a.toNat / 256 ^ (31 - k.toNat) % 256) else 0) ∧
    Instruction.shl.evaluate [shift, a]
      = some (BitVec.ofNat 256 (a.toNat * 2 ^ shift.toNat)) ∧
    Instruction.shr.evaluate [shift, a]
      = some (BitVec.ofNat 256 (a.toNat / 2 ^ shift.toNat)) ∧
    Instruction.addmod.evaluate [a, b, m]
      = some (if m = 0 then 0 else BitVec.ofNat 256 ((a.toNat + b.toNat) % m.toNat)) ∧
    Instruction.mulmod.evaluate [a, b, m]
      = some (if m = 0 then 0 else BitVec.ofNat 256 (a.toNat * b.toNat % m.toNat)) ∧
    Instruction.exp.evaluate [a, b] = some (BitVec.ofNat 256 (a.toNat ^ b.toNat)) := by
  refine ⟨congrArg some ?_, congrArg some (Word.smod_eq_ofInt a b), congrArg some ?_,
    congrArg some ?_, congrArg some (Word.sar_eq_ofInt shift a),
    ⟨_, rfl, Word.signExtend_eq_ofInt k a, fun i => ?_⟩, congrArg some (Word.byteAt_eq_ofNat k a),
    congrArg some (Word.shl_eq_ofNat shift a), congrArg some (Word.shr_eq_ofNat shift a), rfl, rfl,
    congrArg some (Word.pow_eq_ofNat a b)⟩
  -- Division, where zero is asked for first.
  · by_cases hb : b = 0
    · rw [if_pos hb, Word.sdiv, if_pos hb]
    · rw [if_neg hb, Word.sdiv_eq_ofInt]
  -- The two comparisons.
  · rw [Word.slt_eq, Word.ofBool]
    exact if_congr decide_eq_true_iff rfl rfl
  · rw [Word.slt_eq, Word.ofBool]
    exact if_congr decide_eq_true_iff rfl rfl
  -- The bits of an extended sign, of which only those above the byte are special.
  · by_cases hk : k.toNat < 31
    · rw [if_pos hk, Word.signExtend, if_neg (Nat.not_le.mpr hk)]
      refine (Word.getLsbD_signExtend a (by omega) i).trans ?_
      rw [decide_eq_true i.isLt, Bool.true_and]
    · rw [if_neg hk, Word.signExtend, if_pos (Nat.le_of_not_lt hk)]

-- The one signed quotient that is no signed number wraps around.
example : Instruction.sdiv.evaluate [Word.signBit, BitVec.allOnes 256] = some Word.signBit := by
  decide +kernel

end YulToolchain
