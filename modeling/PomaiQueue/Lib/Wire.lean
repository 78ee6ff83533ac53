import Mathlib.Data.List.Basic
import Mathlib.Tactic.Ring
/-!
# Byte strings

Little-endian integers as byte strings, and fields of a byte string.
-/

namespace Wire

abbrev Bytes := List UInt8

/-! ## Little-endian integers -/

/-- The `w` low bytes of `n`, least significant first. -/
def leBytes : Nat → Nat → Bytes
  | 0, _ => []
  | w + 1, n => UInt8.ofNat n :: leBytes w (n / 256)

/-- The number a byte string spells, least significant byte first. -/
def leNat : Bytes → Nat
  | [] => 0
  | b :: bs => b.toNat + 256 * leNat bs

@[simp] theorem leBytes_length (w n : Nat) : (leBytes w n).length = w := by
  induction w generalizing n with
  | zero => rfl
  | succ w ih => simp [leBytes, ih]

@[simp] theorem leNat_nil : leNat [] = 0 := rfl

theorem leNat_leBytes (w n : Nat) : leNat (leBytes w n) = n % 256 ^ w := by
  induction w generalizing n with
  | zero => simp [leBytes, Nat.mod_one]
  | succ w ih =>
    have hb : (UInt8.ofNat n).toNat = n % 256 := UInt8.toNat_ofNat'
    simp only [leBytes, leNat, ih, hb]
    rw [show 256 ^ (w + 1) = 256 * 256 ^ w from pow_succ' 256 w, Nat.mod_mul]

theorem leNat_lt (bs : Bytes) : leNat bs < 256 ^ bs.length := by
  induction bs with
  | nil => simp
  | cons b bs ih =>
    have hb := b.toNat_lt
    simp only [leNat, List.length_cons, pow_succ']
    omega

theorem leBytes_leNat (bs : Bytes) : leBytes bs.length (leNat bs) = bs := by
  induction bs with
  | nil => rfl
  | cons b bs ih =>
    have hb := b.toNat_lt
    have hdiv : (b.toNat + 256 * leNat bs) / 256 = leNat bs := by omega
    have hmod : UInt8.ofNat (b.toNat + 256 * leNat bs) = b := by
      apply UInt8.toNat_inj.1
      rw [UInt8.toNat_ofNat']
      omega
    simp only [List.length_cons, leNat, leBytes, hdiv, hmod, ih]

/-- Cutting bytes off the end can only make the number smaller. -/
theorem leNat_mono {a b : Bytes} (h : a <+: b) : leNat a ≤ leNat b := by
  obtain ⟨c, rfl⟩ := h
  induction a with
  | nil => exact Nat.zero_le _
  | cons x a ih => simp only [List.cons_append, leNat]; omega

/-! The fixed-width unsigned types, as the source copies them in and out of memory. -/

def putU16 (x : UInt16) : Bytes := leBytes 2 x.toNat
def putU32 (x : UInt32) : Bytes := leBytes 4 x.toNat
def putU64 (x : UInt64) : Bytes := leBytes 8 x.toNat
def getU16 (bs : Bytes) : UInt16 := UInt16.ofNat (leNat bs)
def getU32 (bs : Bytes) : UInt32 := UInt32.ofNat (leNat bs)
def getU64 (bs : Bytes) : UInt64 := UInt64.ofNat (leNat bs)

@[simp] theorem putU16_length (x : UInt16) : (putU16 x).length = 2 := leBytes_length _ _
@[simp] theorem putU32_length (x : UInt32) : (putU32 x).length = 4 := leBytes_length _ _
@[simp] theorem putU64_length (x : UInt64) : (putU64 x).length = 8 := leBytes_length _ _

@[simp] theorem leNat_putU64 (x : UInt64) : leNat (putU64 x) = x.toNat := by
  rw [putU64, leNat_leBytes]
  exact Nat.mod_eq_of_lt x.toNat_lt

@[simp] theorem getU16_putU16 (x : UInt16) : getU16 (putU16 x) = x := by
  have h : x.toNat % 256 ^ 2 = x.toNat := Nat.mod_eq_of_lt x.toNat_lt
  rw [getU16, putU16, leNat_leBytes, h, UInt16.ofNat_toNat]

@[simp] theorem getU32_putU32 (x : UInt32) : getU32 (putU32 x) = x := by
  have h : x.toNat % 256 ^ 4 = x.toNat := Nat.mod_eq_of_lt x.toNat_lt
  rw [getU32, putU32, leNat_leBytes, h, UInt32.ofNat_toNat]

@[simp] theorem getU64_putU64 (x : UInt64) : getU64 (putU64 x) = x := by
  rw [getU64, leNat_putU64, UInt64.ofNat_toNat]

theorem putU16_getU16 {bs : Bytes} (h : bs.length = 2) : putU16 (getU16 bs) = bs := by
  have hlt := leNat_lt bs
  rw [h] at hlt
  rw [putU16, getU16, UInt16.toNat_ofNat_of_lt' hlt, ← h, leBytes_leNat]

theorem putU32_getU32 {bs : Bytes} (h : bs.length = 4) : putU32 (getU32 bs) = bs := by
  have hlt := leNat_lt bs
  rw [h] at hlt
  rw [putU32, getU32, UInt32.toNat_ofNat_of_lt' hlt, ← h, leBytes_leNat]

theorem putU64_getU64 {bs : Bytes} (h : bs.length = 8) : putU64 (getU64 bs) = bs := by
  have hlt := leNat_lt bs
  rw [h] at hlt
  rw [putU64, getU64, UInt64.toNat_ofNat_of_lt' hlt, ← h, leBytes_leNat]

/-! ## Fields of a byte string -/

/-- The `n` bytes at position `i`, fewer where the string ends. -/
def field (bs : Bytes) (i n : Nat) : Bytes := (bs.drop i).take n

theorem field_skip (a b : Bytes) (i n : Nat) (h : a.length ≤ i) :
    field (a ++ b) i n = field b (i - a.length) n := by
  rw [field, field, List.drop_append, List.drop_of_length_le h, List.nil_append]

theorem field_here (a b : Bytes) (n : Nat) (h : a.length = n) : field (a ++ b) 0 n = a := by
  subst h
  simp [field]

theorem field_all (a : Bytes) (n : Nat) (h : a.length = n) : field a 0 n = a := by
  subst h
  simp [field]

theorem field_mid (pre mid post : Bytes) (n : Nat) (h : mid.length = n) :
    field (pre ++ mid ++ post) pre.length n = mid := by
  rw [List.append_assoc, field_skip _ _ _ _ le_rfl, Nat.sub_self, field_here _ _ _ h]

theorem field_length (bs : Bytes) (i n : Nat) : (field bs i n).length = min n (bs.length - i) := by
  rw [field, List.length_take, List.length_drop]

theorem field_append (bs : Bytes) (i m n : Nat) : field bs i (m + n) = field bs i m ++ field bs (i + m) n := by
  rw [field, field, field, List.take_add, List.drop_drop]

theorem take_eq_field (bs : Bytes) (n : Nat) : bs.take n = field bs 0 n := by rw [field, List.drop_zero]

/-- Zeros at the end do not change the number. -/
theorem leNat_zeros (a : Bytes) (k : Nat) : leNat (a ++ List.replicate k 0) = leNat a := by
  induction a with
  | nil =>
    induction k with
    | zero => rfl
    | succ k ih => simpa [List.replicate_succ, leNat] using ih
  | cons x a ih => simp only [List.cons_append, leNat, ih]

end Wire
