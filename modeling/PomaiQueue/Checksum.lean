import PomaiQueue.Lib.CrcPoly
import PomaiQueue.Framing
/-!
# The checksum of a record

The table-driven `Crc64::Compute` is the bit-serial CRC of the library, each byte
most significant bit first (`compute_eq_crc`), and so the remainder of a polynomial
division (`compute_eq_remainder`). A body that is changed within 64 successive bits has
another checksum, so `DecodeRecord` does not accept it.
-/

namespace PomaiQueue.Storage

open Wire Posix

/-! ## Bits -/

/-- The bits of a byte, most significant first. -/
def bitsOf (b : UInt8) : List Bool := (List.range 8).map fun i => b.toBitVec.getLsbD (7 - i)

/-- The bits of a byte string in transmission order. -/
def bitsOfBytes (bs : Bytes) : List Bool := bs.flatMap bitsOf

@[simp] theorem bitsOf_length (b : UInt8) : (bitsOf b).length = 8 := by simp [bitsOf]

theorem bitsOf_injective : Function.Injective bitsOf := by
  intro a b h
  apply UInt8.toBitVec_inj.1
  apply BitVec.eq_of_getLsbD_eq
  intro i hi
  have hbit := congrArg (fun l => l[7 - i]?) h
  simp only [bitsOf, List.getElem?_map, List.getElem?_range (show 7 - i < 8 by omega), Option.map_some, Option.some.injEq,
    show 7 - (7 - i) = i by omega] at hbit
  exact hbit

theorem bitsOfBytes_length (bs : Bytes) : (bitsOfBytes bs).length = 8 * bs.length := by
  induction bs with
  | nil => rfl
  | cons b bs ih =>
    rw [bitsOfBytes, List.flatMap_cons, List.length_append, bitsOf_length, List.length_cons, ← bitsOfBytes, ih]
    omega

theorem bitsOfBytes_injective : Function.Injective bitsOfBytes := by
  intro a
  induction a with
  | nil =>
    intro b h
    have hlen := congrArg List.length h
    rw [bitsOfBytes_length, bitsOfBytes_length] at hlen
    exact (List.length_eq_zero_iff.1 (by simpa using hlen.symm)).symm
  | cons x a ih =>
    intro b h
    cases b with
    | nil =>
      have hlen := congrArg List.length h
      rw [bitsOfBytes_length, bitsOfBytes_length] at hlen
      simp at hlen
    | cons y b =>
      simp only [bitsOfBytes, List.flatMap_cons] at h
      obtain ⟨hx, ha⟩ := List.append_inj h (by simp)
      rw [bitsOf_injective hx, ih ha]

/-! ## The register -/

def poly : BitVec 64 := Crc64.kPoly.toBitVec

theorem toBitVec_shiftStep (crc : UInt64) : (Crc64.shiftStep crc).toBitVec = Crc.shift poly crc.toBitVec := by
  have htop : (crc &&& 0x8000000000000000 ≠ 0) ↔ crc.toBitVec.msb = true := by
    have hmask : (crc &&& 0x8000000000000000).toBitVec = crc.toBitVec &&& BitVec.twoPow 64 63 := rfl
    rw [ne_eq, ← UInt64.toBitVec_inj, hmask, BitVec.and_twoPow, BitVec.msb_eq_getLsbD_last]
    change (¬ (if crc.toBitVec.getLsbD 63 then BitVec.twoPow 64 63 else 0#64) = 0#64) ↔ crc.toBitVec.getLsbD 63 = true
    cases crc.toBitVec.getLsbD 63 <;> decide
  unfold Crc64.shiftStep Crc.shift
  by_cases h : crc &&& 0x8000000000000000 ≠ 0
  · rw [if_pos h, if_pos (htop.1 h)]
    rfl
  · rw [if_neg h, if_neg (fun hm => h (htop.2 hm)), BitVec.xor_zero]
    rfl

theorem toBitVec_tableEntry (idx : UInt64) : (Crc64.tableEntry idx).toBitVec = (Crc.shift poly)^[8] (idx <<< 56).toBitVec := by
  have hiter : ∀ n (x : UInt64), (Crc64.shiftStep^[n] x).toBitVec = (Crc.shift poly)^[n] x.toBitVec := by
    intro n
    induction n with
    | zero => exact fun _ => rfl
    | succ n ih =>
      intro x
      rw [Function.iterate_succ_apply, Function.iterate_succ_apply, ih, toBitVec_shiftStep]
  exact hiter 8 _

theorem getLsbD_align_byte (b : UInt8) (i : Nat) :
    (Crc.align (bitsOf b) : BitVec 64).getLsbD i = (decide (56 ≤ i) && b.toBitVec.getLsbD (i - 56)) := by
  rw [Crc.getLsbD_align]
  by_cases hi : i < 64
  · by_cases hlow : 56 ≤ i
    · rw [List.getD_eq_getElem?_getD, bitsOf, List.getElem?_map, List.getElem?_range (by omega)]
      simp [hi, hlow, show 7 - (63 - i) = i - 56 by omega]
    · rw [List.getD_eq_getElem?_getD, List.getElem?_eq_none (by rw [bitsOf_length]; omega)]
      simp [hlow]
  · rw [BitVec.getLsbD_of_ge _ (i - 56) (by omega)]
    simp [hi]

/-- One byte of `Compute` is its eight bits. -/
theorem byteStep_eq_crc (crc : UInt64) (b : UInt8) : (Crc64.byteStep crc b).toBitVec = Crc.crc poly crc.toBitVec (bitsOf b) := by
  -- The register with the byte added, in its upper byte and the rest.
  have hsplit : crc.toBitVec ^^^ Crc.align (bitsOf b) =
      ((((crc >>> 56) ^^^ b.toUInt64).toUInt8.toUInt64) <<< 56).toBitVec ^^^ ((crc.toBitVec <<< 8) >>> 8) := by
    apply BitVec.eq_of_getLsbD_eq
    intro i hi
    have hidx : ((((crc >>> 56) ^^^ b.toUInt64).toUInt8.toUInt64) <<< 56).toBitVec =
        (((crc.toBitVec >>> 56) ^^^ b.toBitVec.setWidth 64).setWidth 8).setWidth 64 <<< 56 := rfl
    rw [hidx, BitVec.getLsbD_xor, BitVec.getLsbD_xor, getLsbD_align_byte, BitVec.getLsbD_shiftLeft, BitVec.getLsbD_setWidth,
      BitVec.getLsbD_setWidth, BitVec.getLsbD_xor, BitVec.getLsbD_setWidth, BitVec.getLsbD_ushiftRight,
      BitVec.getLsbD_ushiftRight, BitVec.getLsbD_shiftLeft]
    by_cases hlow : 56 ≤ i
    · simp [hi, hlow, show ¬ i < 56 by omega, show i - 56 < 64 by omega, show i - 56 < 8 by omega,
        show 56 + (i - 56) = i by omega, show ¬ 8 + i < 64 by omega]
    · simp [hlow, show i < 56 by omega, show 8 + i < 64 by omega]
  have hclear : ∀ i, 64 ≤ i + 8 → ((crc.toBitVec <<< 8) >>> 8).getLsbD i = false := by
    intro i hi
    rw [BitVec.getLsbD_ushiftRight, BitVec.getLsbD_of_ge _ _ (by omega)]
  have hlow : ((crc.toBitVec <<< 8) >>> 8) <<< 8 = crc.toBitVec <<< 8 := by
    apply BitVec.eq_of_getLsbD_eq
    intro i hi
    by_cases h8 : i < 8
    · simp [BitVec.getLsbD_shiftLeft, h8]
    · simp [hi, h8, show 8 + (i - 8) = i by omega]
  rw [Crc.crc_eq _ _ (by rw [bitsOf_length]; decide), bitsOf_length, hsplit, Crc.iterate_shift_xor,
    Crc.iterate_shift_clear _ hclear, hlow, ← toBitVec_tableEntry]
  rfl

/-- `Compute` is the CRC of the bits. -/
theorem compute_eq_crc (data : Bytes) : (Crc64.compute data).toBitVec = Crc.crc poly 0#64 (bitsOfBytes data) := by
  have hfold : ∀ crc : UInt64, (data.foldl Crc64.byteStep crc).toBitVec = Crc.crc poly crc.toBitVec (bitsOfBytes data) := by
    induction data with
    | nil => exact fun _ => rfl
    | cons b data ih =>
      intro crc
      have hcons : bitsOfBytes (b :: data) = bitsOf b ++ bitsOfBytes data := List.flatMap_cons
      rw [List.foldl_cons, ih, byteStep_eq_crc, hcons, Crc.crc_append]
  exact hfold 0

open Polynomial in
/-- `Compute` is what is left of the message when its bits, moved up by 64, are divided by
`X ^ 64` and the polynomial of the table over the field with two elements. -/
theorem compute_eq_remainder (data : Bytes) :
    (Crc64.compute data).toBitVec = Crc.crc 0x42F0E1EBA9EA3693#64 0#64 (bitsOfBytes data) ∧
    Crc.polyOf (Crc64.compute data).toBitVec =
      (Crc.messagePoly (bitsOfBytes data) * X ^ 64) %ₘ (X ^ 64 + Crc.polyOf 0x42F0E1EBA9EA3693#64) := by
  have hpoly : poly = 0x42F0E1EBA9EA3693#64 := rfl
  rw [← hpoly, compute_eq_crc]
  exact ⟨rfl, Crc.polyOf_crc (by decide) poly (bitsOfBytes data)⟩

/-! ## Damage -/

/-- Byte strings that differ, but only within 64 successive bits, have different
checksums. -/
theorem compute_ne_of_window {a b : Bytes} (hlen : a.length = b.length) (hne : a ≠ b) (i : Nat)
    (hwin : ∀ j, (bitsOfBytes a)[j]? ≠ (bitsOfBytes b)[j]? → i ≤ j ∧ j < i + 64) : Crc64.compute a ≠ Crc64.compute b := by
  intro heq
  have hbits := congrArg UInt64.toBitVec heq
  rw [compute_eq_crc, compute_eq_crc] at hbits
  refine Crc.crc_ne_of_window (by decide) 0#64 ?_ (fun h => hne (bitsOfBytes_injective h)) i hwin hbits
  rw [bitsOfBytes_length, bitsOfBytes_length, hlen]

/-- One byte is a window of eight bits. -/
theorem compute_set_ne {body : Bytes} {i : Nat} {b : UInt8} (h : i < body.length) (hne : body[i]? ≠ some b) :
    Crc64.compute (body.set i b) ≠ Crc64.compute body := by
  refine compute_ne_of_window (List.length_set ..) ?_ (8 * i) ?_
  · intro heq
    apply hne
    rw [← heq, List.getElem?_set_self h]
  · intro j hj
    have hsplit : ∀ x : UInt8, bitsOfBytes (body.take i ++ x :: body.drop (i + 1)) =
        bitsOfBytes (body.take i) ++ (bitsOf x ++ bitsOfBytes (body.drop (i + 1))) := by
      intro x
      simp only [bitsOfBytes, List.flatMap_append, List.flatMap_cons]
    have hpre : (bitsOfBytes (body.take i)).length = 8 * i := by
      rw [bitsOfBytes_length, List.length_take, Nat.min_eq_left (Nat.le_of_lt h)]
    have hself : body = body.take i ++ body[i] :: body.drop (i + 1) := by
      rw [← List.drop_eq_getElem_cons h, List.take_append_drop]
    have hset : body.set i b = body.take i ++ b :: body.drop (i + 1) := by
      rw [List.set_eq_take_append_cons_drop, if_pos h]
    rw [hset, hsplit] at hj
    conv at hj => rhs; rw [hself, hsplit]
    by_contra hout
    apply hj
    by_cases hlow : j < 8 * i
    · rw [List.getElem?_append_left (by omega), List.getElem?_append_left (by omega)]
    · have hhigh : ∀ x : UInt8, (bitsOfBytes (body.take i) ++ (bitsOf x ++ bitsOfBytes (body.drop (i + 1))))[j]? =
          (bitsOfBytes (body.drop (i + 1)))[j - 8 * i - 8]? := by
        intro x
        rw [List.getElem?_append_right (by omega), List.getElem?_append_right (by rw [bitsOf_length]; omega), bitsOf_length, hpre]
      rw [hhigh, hhigh]

/-- Every error of the decoder is `kCorruption`. -/
theorem decodeRecord_error {data : Bytes} {e : Failure} (h : decodeRecord data = .error e) :
    ∃ message, e = .status .kCorruption message := by
  have hkvs : ∀ {n rest e}, readKvs n rest = .error e → ∃ message, e = .status .kCorruption message := by
    intro n
    induction n with
    | zero => intro rest e h; cases h
    | succ n ih =>
      intro rest e h
      simp only [readKvs, corrupt] at h
      split at h
      · exact ⟨_, (Except.error.inj h).symm⟩
      · split at h
        · exact ⟨_, (Except.error.inj h).symm⟩
        · split at h
          · rename_i heq
            obtain rfl := Except.error.inj h
            exact ih heq
          · cases h
  simp only [decodeRecord, corrupt] at h
  split at h
  · exact ⟨_, (Except.error.inj h).symm⟩
  · split at h
    · exact ⟨_, (Except.error.inj h).symm⟩
    · split at h
      · rename_i heq
        obtain rfl := Except.error.inj h
        exact hkvs heq
      · split at h
        · exact ⟨_, (Except.error.inj h).symm⟩
        · split at h
          · exact ⟨_, (Except.error.inj h).symm⟩
          · cases h

/-- A buffer whose body does not have the checksum of its header is not accepted. -/
theorem decodeRecord_crc {data : Bytes} (h : Crc64.compute (data.drop headerSize) ≠ (getHeader data).crc64) :
    ∃ message, decodeRecord data = .error (.status .kCorruption message) := by
  cases hd : decodeRecord data with
  | ok r =>
    obtain ⟨-, -, -, rest, -, -, hcrc, -⟩ := decodeRecord_ok hd
    exact absurd hcrc h
  | error e =>
    obtain ⟨message, rfl⟩ := decodeRecord_error hd
    exact ⟨message, rfl⟩

/-- Whatever is changed within 64 successive bits of the body of a record, the
decoder says that the record is corrupt. -/
theorem damaged_body_detected (pad : Padding) (r : Record) (body : Bytes) (hlen : body.length = (bodyBytes r).length)
    (hne : body ≠ bodyBytes r) (i : Nat)
    (hwin : ∀ j, (bitsOfBytes body)[j]? ≠ (bitsOfBytes (bodyBytes r))[j]? → i ≤ j ∧ j < i + 64) :
    ∃ message, decodeRecord (putHeader pad (sealedHeader r) ++ body) = .error (.status .kCorruption message) := by
  apply decodeRecord_crc
  rw [getHeader_putHeader, List.drop_left' (putHeader_length _ _)]
  exact compute_ne_of_window hlen hne i hwin

/-- One bit of the payload. -/
theorem damaged_body_detected_bit :
    ∃ message, decodeRecord (putHeader {} (sealedHeader { payload := [7] }) ++ [5]) = .error (.status .kCorruption message) := by
  refine damaged_body_detected {} { payload := [7] } [5] rfl (by decide) 0 fun j hj => ?_
  refine ⟨Nat.zero_le _, ?_⟩
  by_contra hge
  apply hj
  rw [List.getElem?_eq_none (by rw [bitsOfBytes_length]; simp; omega),
    List.getElem?_eq_none (by rw [bitsOfBytes_length]; simp [bodyBytes]; omega)]

end PomaiQueue.Storage
