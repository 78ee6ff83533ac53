import PomaiQueue.Lib.Crc
import Mathlib.Algebra.Polynomial.Div
import Mathlib.Algebra.Polynomial.Monic
import Mathlib.Algebra.Field.ZMod
import Mathlib.Tactic.Ring
/-!
# Checksums are remainders

The bits of a register and of a message as the coefficients of polynomials over the field
with two elements. Feeding a bit to the register multiplies by `X` and adds a multiple of
the generator (`polyOf_feed`), so what is left in the register after a message is the
remainder of the message, moved up by the width, by the generator (`polyOf_crc`).
-/

namespace Crc

open Polynomial

variable {w : Nat}

/-- A bit as a coefficient. -/
def bit (b : Bool) : ZMod 2 := if b then 1 else 0

theorem bit_xor (a b : Bool) : bit (a ^^ b) = bit a + bit b := by
  cases a <;> cases b <;> decide

/-- The register: bit `i` is the coefficient of `X ^ i`. -/
noncomputable def polyOf (s : BitVec w) : (ZMod 2)[X] := ∑ i ∈ Finset.range w, monomial i (bit (s.getLsbD i))

/-- The message: the first bit is the leading one. -/
noncomputable def messagePoly (bits : List Bool) : (ZMod 2)[X] := bits.foldl (fun p b => p * X + C (bit b)) 0

/-- The polynomial that `P` stands for, which leaves out the leading term. -/
noncomputable def generator (P : BitVec w) : (ZMod 2)[X] := X ^ w + polyOf P

@[simp] theorem coeff_polyOf (s : BitVec w) (n : Nat) : (polyOf s).coeff n = bit (s.getLsbD n) := by
  simp only [polyOf, finsetSum_coeff, coeff_monomial]
  rw [Finset.sum_ite_eq' (Finset.range w) n fun i => bit (s.getLsbD i)]
  by_cases h : n < w
  · rw [if_pos (Finset.mem_range.2 h)]
  · rw [if_neg (fun hmem => h (Finset.mem_range.1 hmem)), BitVec.getLsbD_of_ge _ _ (Nat.not_lt.1 h)]
    rfl

theorem degree_polyOf_lt (s : BitVec w) : (polyOf s).degree < w := by
  rw [degree_lt_iff_coeff_zero]
  intro n hn
  rw [coeff_polyOf, BitVec.getLsbD_of_ge _ _ hn]
  rfl

theorem generator_monic (P : BitVec w) : (generator P).Monic := monic_X_pow_add (degree_polyOf_lt P)

theorem degree_polyOf_lt_generator (P s : BitVec w) : (polyOf s).degree < (generator P).degree := by
  rw [generator, degree_add_eq_left_of_degree_lt (by rw [degree_X_pow]; exact degree_polyOf_lt P), degree_X_pow]
  exact degree_polyOf_lt s

/-! ## One bit -/

theorem polyOf_zero : polyOf (0#w) = 0 := by
  ext n
  rw [coeff_polyOf, BitVec.getLsbD_zero, coeff_zero]
  rfl

theorem polyOf_xor (a b : BitVec w) : polyOf (a ^^^ b) = polyOf a + polyOf b := by
  ext n
  rw [coeff_add, coeff_polyOf, coeff_polyOf, coeff_polyOf, BitVec.getLsbD_xor, bit_xor]

theorem polyOf_top (hw : 0 < w) (b : Bool) : polyOf (top b : BitVec w) * X = C (bit b) * X ^ w := by
  ext n
  rw [coeff_C_mul, coeff_X_pow]
  cases n with
  | zero => rw [coeff_mul_X_zero, if_neg (Nat.ne_of_lt hw), mul_zero]
  | succ n =>
    rw [coeff_mul_X, coeff_polyOf, getLsbD_top]
    by_cases h : n + 1 = w
    · rw [if_pos h, mul_one, decide_eq_true h, Bool.and_true]
    · rw [if_neg h, mul_zero, decide_eq_false h, Bool.and_false]
      rfl

/-- A shift without `P` loses the top bit. -/
theorem polyOf_shiftLeft (hw : 0 < w) (s : BitVec w) : polyOf (s <<< 1) + C (bit s.msb) * X ^ w = polyOf s * X := by
  ext n
  rw [coeff_add, coeff_C_mul, coeff_X_pow, coeff_polyOf, BitVec.getLsbD_shiftLeft]
  cases n with
  | zero =>
    rw [coeff_mul_X_zero, if_neg (Nat.ne_of_lt hw), mul_zero, add_zero]
    simp [bit]
  | succ n =>
    rw [coeff_mul_X, coeff_polyOf, Nat.add_sub_cancel]
    rcases Nat.lt_trichotomy (n + 1) w with h | h | h
    · rw [if_neg (Nat.ne_of_lt h), mul_zero, add_zero]
      simp [h]
    · rw [if_pos h, mul_one, BitVec.msb_eq_getLsbD_last, show w - 1 = n from by omega, decide_eq_false (by omega), Bool.false_and,
        Bool.false_and]
      exact zero_add _
    · rw [if_neg (Nat.ne_of_gt h), mul_zero, add_zero, BitVec.getLsbD_of_ge s n (by omega), Bool.and_false]

theorem polyOf_shift (hw : 0 < w) (P s : BitVec w) : polyOf (shift P s) = polyOf s * X + C (bit s.msb) * generator P := by
  have hP : polyOf (if s.msb then P else 0#w) = C (bit s.msb) * polyOf P := by
    cases s.msb with
    | true => rw [if_pos rfl, show bit true = 1 from rfl, C_1, one_mul]
    | false => rw [if_neg Bool.false_ne_true, polyOf_zero, show bit false = 0 from rfl, C_0, zero_mul]
  have hdouble : ∀ p : (ZMod 2)[X], p + p = 0 := fun p => CharTwo.add_self_eq_zero p
  rw [shift, polyOf_xor, hP, generator, ← polyOf_shiftLeft hw, mul_add, add_assoc (polyOf (s <<< 1)), ← add_assoc (C (bit s.msb) * X ^ w),
    hdouble, zero_add]

theorem polyOf_feed (hw : 0 < w) (P s : BitVec w) (b : Bool) :
    ∃ q, polyOf s * X + C (bit b) * X ^ w = polyOf (feed P s b) + generator P * q := by
  refine ⟨C (bit (s ^^^ top b).msb), ?_⟩
  have hdouble : ∀ p : (ZMod 2)[X], p + p = 0 := fun p => CharTwo.add_self_eq_zero p
  rw [feed, polyOf_shift hw, polyOf_xor, add_mul, polyOf_top hw, mul_comm (generator P), add_assoc, hdouble, add_zero]

/-! ## A message -/

theorem foldl_message (p : (ZMod 2)[X]) (bits : List Bool) :
    bits.foldl (fun p b => p * X + C (bit b)) p = p * X ^ bits.length + messagePoly bits := by
  induction bits generalizing p with
  | nil => rw [List.length_nil, pow_zero, mul_one, messagePoly, List.foldl_nil, List.foldl_nil, add_zero]
  | cons b bits ih =>
    rw [messagePoly, List.foldl_cons, List.foldl_cons, ih, ih (0 * X + C (bit b)), List.length_cons, pow_succ']
    ring

theorem messagePoly_cons (b : Bool) (bits : List Bool) :
    messagePoly (b :: bits) = C (bit b) * X ^ bits.length + messagePoly bits := by
  rw [messagePoly, List.foldl_cons, foldl_message, zero_mul, zero_add]

/-- Up to a multiple of the generator the register is the message, behind what was in it. -/
theorem polyOf_crc_add (hw : 0 < w) (P s : BitVec w) (bits : List Bool) :
    ∃ q, polyOf s * X ^ bits.length + messagePoly bits * X ^ w = polyOf (crc P s bits) + generator P * q := by
  induction bits generalizing s with
  | nil => exact ⟨0, by simp [messagePoly, crc]⟩
  | cons b bits ih =>
    obtain ⟨q, hq⟩ := ih (feed P s b)
    obtain ⟨q', hq'⟩ := polyOf_feed hw P s b
    refine ⟨q + q' * X ^ bits.length, ?_⟩
    calc polyOf s * X ^ (b :: bits).length + messagePoly (b :: bits) * X ^ w
      _ = (polyOf s * X + C (bit b) * X ^ w) * X ^ bits.length + messagePoly bits * X ^ w := by
        rw [messagePoly_cons, List.length_cons, pow_succ']
        ring
      _ = polyOf (feed P s b) * X ^ bits.length + messagePoly bits * X ^ w + generator P * (q' * X ^ bits.length) := by
        rw [hq']
        ring
      _ = polyOf (crc P s (b :: bits)) + generator P * (q + q' * X ^ bits.length) := by
        rw [hq, mul_add, add_assoc]
        rfl

/-- The checksum is the remainder of the message times `X ^ w` by the generator. -/
theorem polyOf_crc (hw : 0 < w) (P : BitVec w) (bits : List Bool) :
    polyOf (crc P 0#w bits) = (messagePoly bits * X ^ w) %ₘ generator P := by
  obtain ⟨q, hq⟩ := polyOf_crc_add hw P 0#w bits
  rw [polyOf_zero, zero_mul, zero_add] at hq
  exact (div_modByMonic_unique q _ (generator_monic P) ⟨hq.symm, degree_polyOf_lt_generator P _⟩).2.symm

end Crc
