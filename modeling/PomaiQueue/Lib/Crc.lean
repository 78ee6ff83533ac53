import Mathlib.Logic.Function.Iterate
import Mathlib.Data.List.Basic
/-!
# Cyclic redundancy checks

A register of `w` bits that takes the bits of a message one after the other at
its upper end, for any width and any polynomial with a constant term. Feeding up
to `w` bits is the same as adding them to the register at once and then shifting
(`crc_eq`), and a shift loses nothing (`shift_injective`). So two messages that
differ within `w` bits only have different checksums (`crc_ne_of_window`).
-/

namespace Crc

variable {w : Nat}

/-! ## Shifting the register -/

/-- One shift of the register: the bit that falls out at the top brings in `P`. -/
def shift (P s : BitVec w) : BitVec w := (s <<< 1) ^^^ if s.msb then P else 0#w

theorem shift_xor (P a b : BitVec w) : shift P (a ^^^ b) = shift P a ^^^ shift P b := by
  apply BitVec.eq_of_getLsbD_eq
  intro i _
  unfold shift
  rw [BitVec.shiftLeft_xor_distrib, BitVec.msb_xor]
  simp only [BitVec.getLsbD_xor]
  generalize (a <<< 1).getLsbD i = x
  generalize (b <<< 1).getLsbD i = y
  cases a.msb <;> cases b.msb <;> cases x <;> cases y <;> simp

theorem shift_eq_zero {P s : BitVec w} (hP : P.getLsbD 0 = true) (h : shift P s = 0#w) : s = 0#w := by
  have hw : 0 < w := BitVec.lt_of_getLsbD hP
  have hbit : ∀ i, (shift P s).getLsbD i = false := by
    intro i
    rw [h, BitVec.getLsbD_zero]
  have hmsb : s.msb = false := by
    by_contra hne
    have hset : s.msb = true := by simpa using hne
    have h0 := hbit 0
    rw [shift, hset, if_pos rfl, BitVec.getLsbD_xor, hP] at h0
    simp at h0
  apply BitVec.eq_of_getLsbD_eq
  intro i hi
  rw [BitVec.getLsbD_zero]
  by_cases hlast : i + 1 < w
  · have hi1 := hbit (i + 1)
    rw [shift, hmsb, if_neg (by simp), BitVec.xor_zero, BitVec.getLsbD_shiftLeft] at hi1
    simpa only [hlast, decide_true, Bool.true_and, Nat.not_lt.2 (Nat.le_add_left 1 i), decide_false, Bool.not_false,
      Nat.add_sub_cancel] using hi1
  · rw [BitVec.msb_eq_getLsbD_last] at hmsb
    rw [← hmsb]
    congr 1
    omega

theorem shift_injective {P : BitVec w} (hP : P.getLsbD 0 = true) : Function.Injective (shift P) := by
  intro a b h
  have hx : shift P (a ^^^ b) = 0#w := by rw [shift_xor, h, BitVec.xor_self]
  exact BitVec.xor_eq_zero_iff.1 (shift_eq_zero hP hx)

theorem iterate_shift_xor (P a b : BitVec w) (n : Nat) : (shift P)^[n] (a ^^^ b) = (shift P)^[n] a ^^^ (shift P)^[n] b := by
  induction n generalizing a b with
  | zero => rfl
  | succ n ih => rw [Function.iterate_succ_apply, Function.iterate_succ_apply, Function.iterate_succ_apply, shift_xor, ih]

/-- Nothing falls out of a register whose upper `n` bits are clear. -/
theorem iterate_shift_clear (P : BitVec w) {s : BitVec w} {n : Nat} (h : ∀ i, w ≤ i + n → s.getLsbD i = false) :
    (shift P)^[n] s = s <<< n := by
  induction n generalizing s with
  | zero => simp
  | succ n ih =>
    have hmsb : s.msb = false := by
      rw [BitVec.msb_eq_getLsbD_last]
      exact h (w - 1) (by omega)
    have hone : shift P s = s <<< 1 := by simp [shift, hmsb]
    have hshift : s <<< (n + 1) = (s <<< 1) <<< n := by rw [Nat.add_comm, BitVec.shiftLeft_add]
    rw [Function.iterate_succ_apply, hone, hshift]
    refine ih fun i hi => ?_
    rw [BitVec.getLsbD_shiftLeft]
    by_cases h0 : i < 1
    · simp [h0]
    · rw [h (i - 1) (by omega)]
      simp

/-! ## Messages -/

/-- The bit at the upper end of the register. -/
def top (b : Bool) : BitVec w := if b then BitVec.twoPow w (w - 1) else 0#w

def feed (P s : BitVec w) (b : Bool) : BitVec w := shift P (s ^^^ top b)

def crc (P s : BitVec w) (bits : List Bool) : BitVec w := bits.foldl (feed P) s

/-- The bits at the upper end of the register, the first one on top. -/
def align : List Bool → BitVec w
  | [] => 0#w
  | b :: bits => top b ^^^ (align bits >>> 1)

theorem getLsbD_top (b : Bool) (i : Nat) : (top b : BitVec w).getLsbD i = (b && decide (i + 1 = w)) := by
  unfold top
  cases b with
  | false => simp
  | true =>
    rw [if_pos rfl, BitVec.getLsbD_twoPow, Bool.true_and, ← Bool.decide_and, decide_eq_decide]
    omega

theorem getLsbD_align (bits : List Bool) (i : Nat) :
    (align bits : BitVec w).getLsbD i = (decide (i < w) && bits.getD (w - 1 - i) false) := by
  induction bits generalizing i with
  | nil => simp [align]
  | cons b bits ih =>
    rw [align, BitVec.getLsbD_xor, getLsbD_top, BitVec.getLsbD_ushiftRight, ih]
    by_cases hi : i < w
    · by_cases hw : i + 1 = w
      · simp [hw, show w - 1 - i = 0 by omega, hi, show ¬ 1 + i < w by omega]
      · obtain ⟨k, hk⟩ : ∃ k, w - 1 - i = k + 1 := ⟨w - 2 - i, by omega⟩
        simp [hw, hk, hi, show 1 + i < w by omega, show w - 1 - (1 + i) = k by omega]
    · simp [hi, show ¬ 1 + i < w by omega, show ¬ i + 1 = w by omega]

/-- Bits that do not reach the lower end can be shifted up one after the other. -/
theorem shift_align {bits : List Bool} (h : bits.length < w) (P : BitVec w) : shift P (align bits >>> 1) = align bits := by
  have hclear : ∀ i, w ≤ i + 1 → (align bits >>> 1 : BitVec w).getLsbD i = false := by
    intro i hi
    rw [BitVec.getLsbD_ushiftRight, BitVec.getLsbD_of_ge _ _ (by omega)]
  have hone := iterate_shift_clear P hclear
  rw [Function.iterate_one] at hone
  rw [hone]
  apply BitVec.eq_of_getLsbD_eq
  intro i hi
  rw [BitVec.getLsbD_shiftLeft, BitVec.getLsbD_ushiftRight]
  by_cases h0 : i < 1
  · have hlow : (align bits : BitVec w).getLsbD i = false := by
      rw [getLsbD_align, List.getD_eq_getElem?_getD, List.getElem?_eq_none (by omega)]
      simp
    rw [hlow]
    simp [h0]
  · simp [hi, h0, show 1 + (i - 1) = i by omega]

/-- Up to `w` bits can be added to the register at once. -/
theorem crc_eq (P s : BitVec w) {bits : List Bool} (h : bits.length ≤ w) :
    crc P s bits = (shift P)^[bits.length] (s ^^^ align bits) := by
  induction bits generalizing s with
  | nil => simp [crc, align]
  | cons b bits ih =>
    have hlt : bits.length < w := h
    have hstep : crc P s (b :: bits) = crc P (feed P s b) bits := rfl
    rw [hstep, ih _ (Nat.le_of_lt hlt), List.length_cons, Function.iterate_succ_apply]
    have hadd : feed P s b ^^^ align bits = shift P (s ^^^ align (b :: bits)) := by
      conv_lhs => rw [feed, ← shift_align hlt P, ← shift_xor, BitVec.xor_assoc]
      rfl
    rw [hadd]

theorem align_injective {a b : List Bool} (hlen : a.length = b.length) (hw : a.length ≤ w)
    (h : (align a : BitVec w) = align b) : a = b := by
  apply List.ext_getElem hlen
  intro j hj hj'
  have hbit := congrArg (fun s => s.getLsbD (w - 1 - j)) h
  simp only [getLsbD_align] at hbit
  have hback : w - 1 - (w - 1 - j) = j := by omega
  have hlt : w - 1 - j < w := by omega
  simpa [hback, hlt, hj, hj'] using hbit

theorem crc_append (P s : BitVec w) (a b : List Bool) : crc P s (a ++ b) = crc P (crc P s a) b := List.foldl_append

/-- The register before a message can be told from the register after it. -/
theorem crc_injective {P : BitVec w} (hP : P.getLsbD 0 = true) (bits : List Bool) : Function.Injective (crc P · bits) := by
  intro s t h
  induction bits generalizing s t with
  | nil => exact h
  | cons b bits ih =>
    have hfeed : feed P s b = feed P t b := ih h
    exact (BitVec.xor_left_inj _).1 (shift_injective hP hfeed)

/-- Messages that differ, but only within `w` successive bits, have different checksums. -/
theorem crc_ne_of_window {P : BitVec w} (hP : P.getLsbD 0 = true) (s : BitVec w) {a b : List Bool}
    (hlen : a.length = b.length) (hne : a ≠ b) (i : Nat) (hwin : ∀ j, a[j]? ≠ b[j]? → i ≤ j ∧ j < i + w) :
    crc P s a ≠ crc P s b := by
  have hpre : a.take i = b.take i := by
    apply List.ext_getElem?
    intro j
    rw [List.getElem?_take, List.getElem?_take]
    split
    · rename_i hj
      by_contra hdiff
      exact absurd (hwin j hdiff).1 (by omega)
    · rfl
  have hpost : (a.drop i).drop w = (b.drop i).drop w := by
    apply List.ext_getElem?
    intro j
    rw [List.drop_drop, List.drop_drop, List.getElem?_drop, List.getElem?_drop]
    by_contra hdiff
    exact absurd (hwin _ hdiff).2 (by omega)
  intro heq
  rw [← List.take_append_drop i a, ← List.take_append_drop i b, crc_append, crc_append, hpre,
    ← List.take_append_drop w (a.drop i), ← List.take_append_drop w (b.drop i), crc_append, crc_append, hpost] at heq
  have hmid := crc_injective hP _ heq
  have hlen' : ((a.drop i).take w).length = ((b.drop i).take w).length := by simp [hlen]
  have hle : ((a.drop i).take w).length ≤ w := List.length_take_le _ _
  have hle' : ((b.drop i).take w).length ≤ w := List.length_take_le _ _
  rw [crc_eq P (crc P s (b.take i)) hle, crc_eq P (crc P s (b.take i)) hle', ← hlen'] at hmid
  have hwindow : (a.drop i).take w = (b.drop i).take w :=
    align_injective hlen' hle ((BitVec.xor_right_inj _).1 ((shift_injective hP).iterate _ hmid))
  apply hne
  rw [← List.take_append_drop i a, ← List.take_append_drop i b, hpre, ← List.take_append_drop w (a.drop i),
    ← List.take_append_drop w (b.drop i), hwindow, hpost]

end Crc
