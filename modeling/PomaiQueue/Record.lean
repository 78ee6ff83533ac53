import Mathlib.Data.List.Basic
import PomaiQueue.Lib.Posix
import PomaiQueue.Util
/-!
# Records

`src/core/storage/record.cc`: the record a segment holds, its encoding and its
decoder, and the size walk with which `SegmentLog` frames a record before it
decodes it.

The encoder narrows the header count to 16 bits and every length to 32 bits.
`Record.Fits` says that nothing is lost by it. For such a record
`kvWalk_putHeaders` and `decode_recordBytes` say that the walk and the decoder
take exactly the bytes the encoder wrote. `decodeRecord_fits` is the other
side: whatever the decoder accepts fits, so a record that does not fit is
never read back.
-/

namespace PomaiQueue.Storage

open Wire Posix

def kRecordMagic : UInt32 := 0x504D5151
def kRecordVersion : UInt16 := 1

/-- The fields of `RecordHeader` after `magic` and `version`, which keep their
default initialisers in every record the program builds. -/
structure RecordHeader where
  header_kv_count : UInt16 := 0
  payload_size : UInt32 := 0
  crc64 : UInt64 := 0
  offset : UInt64 := 0
  enqueue_ts : UInt64 := 0
  msg_id_high : UInt64 := 0
  msg_id_low : UInt64 := 0
  routing_key_size : UInt32 := 0
  deriving DecidableEq

structure Record where
  header : RecordHeader := {}
  payload : Bytes := []
  headers : List (Bytes × Bytes) := []
  routing_key : Bytes := []
  deriving DecidableEq

/-- What the copy of a `RecordHeader` holds in the compiler's gaps, at bytes
12 to 15 and 60 to 63. No reader looks at them. -/
structure Padding where
  gap : UInt32 := 0
  tail : UInt32 := 0

/-! ## The header in memory -/

/-- `sizeof(RecordHeader)`. -/
def headerSize : Nat := 64

def putHeader (pad : Padding) (h : RecordHeader) : Bytes :=
  putU32 kRecordMagic ++ (putU16 kRecordVersion ++ (putU16 h.header_kv_count ++ (putU32 h.payload_size ++
  (putU32 pad.gap ++ (putU64 h.crc64 ++ (putU64 h.offset ++ (putU64 h.enqueue_ts ++
  (putU64 h.msg_id_high ++ (putU64 h.msg_id_low ++ (putU32 h.routing_key_size ++ putU32 pad.tail))))))))))

def magicOf (bs : Bytes) : UInt32 := getU32 (field bs 0 4)
def versionOf (bs : Bytes) : UInt16 := getU16 (field bs 4 2)

def getHeader (bs : Bytes) : RecordHeader where
  header_kv_count := getU16 (field bs 6 2)
  payload_size := getU32 (field bs 8 4)
  crc64 := getU64 (field bs 16 8)
  offset := getU64 (field bs 24 8)
  enqueue_ts := getU64 (field bs 32 8)
  msg_id_high := getU64 (field bs 40 8)
  msg_id_low := getU64 (field bs 48 8)
  routing_key_size := getU32 (field bs 56 4)

@[simp] theorem putHeader_length (pad : Padding) (h : RecordHeader) : (putHeader pad h).length = headerSize := by
  simp [putHeader, headerSize]

theorem magicOf_putHeader (pad : Padding) (h : RecordHeader) (s : Bytes) :
    magicOf (putHeader pad h ++ s) = kRecordMagic := by
  simp only [magicOf, putHeader, List.append_assoc]
  rw [field_here _ _ _ (by simp), getU32_putU32]

theorem versionOf_putHeader (pad : Padding) (h : RecordHeader) (s : Bytes) :
    versionOf (putHeader pad h ++ s) = kRecordVersion := by
  simp only [versionOf, putHeader, List.append_assoc]
  rw [field_skip _ _ _ _ (by simp), putU32_length, field_here _ _ _ (by simp), getU16_putU16]

theorem getHeader_putHeader (pad : Padding) (h : RecordHeader) (s : Bytes) :
    getHeader (putHeader pad h ++ s) = h := by
  simp only [getHeader, putHeader, List.append_assoc]
  simp (disch := simp) only [field_skip, putU16_length, putU32_length, putU64_length, Nat.reduceSub, field_here,
    getU16_putU16, getU32_putU32, getU64_putU64]

/-! ## Encoding -/

/-- One key/value pair. The source copies `key_size` and `value_size` bytes,
the sizes after narrowing. -/
def putKv (kv : Bytes × Bytes) : Bytes :=
  let key_size := UInt32.ofNat kv.1.length
  let value_size := UInt32.ofNat kv.2.length
  putU32 key_size ++ (putU32 value_size ++ (kv.1.take key_size.toNat ++ kv.2.take value_size.toNat))

/-- Everything after the header. -/
def bodyBytes (r : Record) : Bytes := r.headers.flatMap putKv ++ (r.routing_key ++ r.payload)

/-- The header `EncodeRecord` writes: the record's own with the sizes
narrowed and the CRC of the body. -/
def sealedHeader (r : Record) : RecordHeader :=
  { r.header with
    payload_size := UInt32.ofNat r.payload.length
    header_kv_count := UInt16.ofNat r.headers.length
    routing_key_size := UInt32.ofNat r.routing_key.length
    crc64 := Crc64.compute (bodyBytes r) }

def recordBytes (pad : Padding) (r : Record) : Bytes := putHeader pad (sealedHeader r) ++ bodyBytes r

def encodeRecord (pad : Padding) (r : Record) : StatusOr Bytes := .ok (recordBytes pad r)

/-! ## Decoding -/

def corrupt {α : Type} (message : String) : StatusOr α := .error (.status .kCorruption message)

/-- The loop over the `n` key/value pairs: the pairs, and what is left. -/
def readKvs : Nat → Bytes → StatusOr (List (Bytes × Bytes) × Bytes)
  | 0, rest => .ok ([], rest)
  | n + 1, rest =>
    if rest.length < 8 then corrupt "record header kv too small"
    else
      let key_size := (getU32 (field rest 0 4)).toNat
      let value_size := (getU32 (field rest 4 4)).toNat
      let kv := rest.drop 8
      if kv.length < key_size + value_size then corrupt "record header kv truncated"
      else
        match readKvs n (kv.drop (key_size + value_size)) with
        | .error e => .error e
        | .ok (kvs, rest') => .ok ((kv.take key_size, field kv key_size value_size) :: kvs, rest')

def decodeRecord (data : Bytes) : StatusOr Record :=
  if data.length < headerSize then corrupt "record header too small"
  else if magicOf data ≠ kRecordMagic ∨ versionOf data ≠ kRecordVersion then
    corrupt "record header magic/version mismatch"
  else
    let header := getHeader data
    match readKvs header.header_kv_count.toNat (data.drop headerSize) with
    | .error e => .error e
    | .ok (headers, rest) =>
      let routing_key_size := header.routing_key_size.toNat
      let payload_size := header.payload_size.toNat
      if rest.length < routing_key_size + payload_size then corrupt "record payload truncated"
      else if Crc64.compute (data.drop headerSize) ≠ header.crc64 then corrupt "record crc mismatch"
      else .ok ⟨header, field rest routing_key_size payload_size, headers, rest.take routing_key_size⟩

/-- The size walk of `SegmentLog::Read` and `Recover` over the key/value pairs:
`none` when a size pair is cut off by the end of the file. -/
def kvWalk (file : Bytes) : Nat → Nat → Nat → Option Nat
  | 0, _, record_size => some record_size
  | n + 1, kv_cursor, record_size =>
    let sizes := pread file 8 kv_cursor
    if sizes.length < 8 then none
    else
      let step := 8 + (getU32 (field sizes 0 4)).toNat + (getU32 (field sizes 4 4)).toNat
      kvWalk file n (kv_cursor + step) (record_size + step)

/-- The walk for the record whose header stands at `position`. -/
def recordSize (file : Bytes) (position : Nat) (header : RecordHeader) : Option Nat :=
  kvWalk file header.header_kv_count.toNat (position + headerSize)
    (headerSize + header.routing_key_size.toNat + header.payload_size.toNat)

/-! ## Records the format can represent -/

/-- A length or count that a field of the format can hold. -/
structure Record.Fits (r : Record) : Prop where
  kv_count : r.headers.length ≤ 65535
  kv_sizes : ∀ kv ∈ r.headers, kv.1.length < 2 ^ 32 ∧ kv.2.length < 2 ^ 32
  routing_key : r.routing_key.length < 2 ^ 32
  payload : r.payload.length < 2 ^ 32

instance (r : Record) : Decidable r.Fits :=
  decidable_of_iff (r.headers.length ≤ 65535 ∧ (∀ kv ∈ r.headers, kv.1.length < 2 ^ 32 ∧ kv.2.length < 2 ^ 32) ∧
      r.routing_key.length < 2 ^ 32 ∧ r.payload.length < 2 ^ 32)
    ⟨fun h => ⟨h.1, h.2.1, h.2.2.1, h.2.2.2⟩, fun h => ⟨h.1, h.2, h.3, h.4⟩⟩

theorem u32_toNat {n : Nat} (h : n < 2 ^ 32) : (UInt32.ofNat n).toNat = n := UInt32.toNat_ofNat_of_lt' h

theorem u16_toNat {n : Nat} (h : n ≤ 65535) : (UInt16.ofNat n).toNat = n :=
  UInt16.toNat_ofNat_of_lt' (show n < 65536 by omega)

theorem putKv_length (kv : Bytes × Bytes) (h : kv.1.length < 2 ^ 32 ∧ kv.2.length < 2 ^ 32) :
    (putKv kv).length = 8 + kv.1.length + kv.2.length := by
  simp only [putKv, u32_toNat h.1, u32_toNat h.2, List.length_append, putU32_length, List.take_length]
  omega

/-- The size pair in front of a key/value pair. -/
theorem putKv_sizes (kv : Bytes × Bytes) (s : Bytes) :
    field (putKv kv ++ s) 0 8 =
      putU32 (UInt32.ofNat kv.1.length) ++ putU32 (UInt32.ofNat kv.2.length) := by
  simp only [putKv]
  rw [← List.append_assoc (putU32 _) (putU32 _), List.append_assoc]
  exact field_here _ _ _ (by simp)

/-- The walk over encoded pairs adds up exactly their bytes. -/
theorem kvWalk_putHeaders (pre post : Bytes) (kvs : List (Bytes × Bytes))
    (h : ∀ kv ∈ kvs, kv.1.length < 2 ^ 32 ∧ kv.2.length < 2 ^ 32) (size : Nat) :
    kvWalk (pre ++ kvs.flatMap putKv ++ post) kvs.length pre.length size =
      some (size + (kvs.flatMap putKv).length) := by
  induction kvs generalizing pre size with
  | nil => simp [kvWalk]
  | cons kv kvs ih =>
    have hkv := h kv (by simp)
    have hsizes : pread (pre ++ (kv :: kvs).flatMap putKv ++ post) 8 pre.length =
        putU32 (UInt32.ofNat kv.1.length) ++ putU32 (UInt32.ofNat kv.2.length) := by
      rw [pread, List.append_assoc, field_skip _ _ _ _ le_rfl, Nat.sub_self, List.flatMap_cons, List.append_assoc,
        putKv_sizes]
    have hstep := ih (pre ++ putKv kv) (fun x hx => h x (by simp [hx])) (size + (putKv kv).length)
    rw [List.length_append, putKv_length kv hkv] at hstep
    simp only [List.length_cons, kvWalk, hsizes]
    rw [if_neg (by simp), field_here _ _ _ (by simp), field_skip _ _ _ _ (by simp), putU32_length, Nat.sub_self,
      field_all _ _ (by simp), getU32_putU32, getU32_putU32, u32_toNat hkv.1, u32_toNat hkv.2]
    simp only [List.flatMap_cons, List.length_append, putKv_length kv hkv, ← List.append_assoc, Nat.add_assoc] at hstep ⊢
    exact hstep

/-- The decoder's loop reads encoded pairs back. -/
theorem readKvs_putHeaders (kvs : List (Bytes × Bytes)) (s : Bytes)
    (h : ∀ kv ∈ kvs, kv.1.length < 2 ^ 32 ∧ kv.2.length < 2 ^ 32) :
    readKvs kvs.length (kvs.flatMap putKv ++ s) = .ok (kvs, s) := by
  induction kvs with
  | nil => rfl
  | cons kv kvs ih =>
    obtain ⟨k, v⟩ := kv
    have hkv := h (k, v) (by simp)
    have hput : ((k, v) :: kvs).flatMap putKv ++ s =
        putU32 (UInt32.ofNat k.length) ++ (putU32 (UInt32.ofNat v.length) ++ (k ++ (v ++ (kvs.flatMap putKv ++ s)))) := by
      simp only [List.flatMap_cons, putKv, u32_toNat hkv.1, u32_toNat hkv.2, List.take_length, List.append_assoc]
    have hdrop : (((k, v) :: kvs).flatMap putKv ++ s).drop 8 = k ++ (v ++ (kvs.flatMap putKv ++ s)) := by
      rw [hput, ← List.append_assoc, List.drop_left' (by simp)]
    have hk : getU32 (field (((k, v) :: kvs).flatMap putKv ++ s) 0 4) = UInt32.ofNat k.length := by
      rw [hput, field_here _ _ _ (by simp), getU32_putU32]
    have hv : getU32 (field (((k, v) :: kvs).flatMap putKv ++ s) 4 4) = UInt32.ofNat v.length := by
      rw [hput, field_skip _ _ _ _ (by simp), putU32_length, Nat.sub_self, field_here _ _ _ (by simp), getU32_putU32]
    have hlen : ¬ (((k, v) :: kvs).flatMap putKv ++ s).length < 8 := by
      rw [hput]; simp; omega
    have hrest : (k ++ (v ++ (kvs.flatMap putKv ++ s))).drop (k.length + v.length) = kvs.flatMap putKv ++ s := by
      rw [← List.append_assoc, List.drop_left' (by simp)]
    simp only [List.length_cons, readKvs, hlen, if_false, hdrop, hk, hv, u32_toNat hkv.1, u32_toNat hkv.2, hrest,
      ih (fun x hx => h x (by simp [hx]))]
    rw [if_neg (by simp), List.take_left, field_skip _ _ _ _ le_rfl, Nat.sub_self, field_here _ _ _ rfl]

theorem recordBytes_length (pad : Padding) (r : Record) :
    (recordBytes pad r).length = headerSize + (bodyBytes r).length := by
  rw [recordBytes, List.length_append, putHeader_length]

/-- The walk over a record that fits computes exactly the record's size. -/
theorem recordSize_recordBytes (pre post : Bytes) (pad : Padding) (r : Record) (h : r.Fits) :
    recordSize (pre ++ recordBytes pad r ++ post) pre.length (sealedHeader r) = some (recordBytes pad r).length := by
  have hfile : pre ++ recordBytes pad r ++ post =
      (pre ++ putHeader pad (sealedHeader r)) ++ r.headers.flatMap putKv ++ (r.routing_key ++ r.payload ++ post) := by
    simp only [recordBytes, bodyBytes, List.append_assoc]
  have hw := kvWalk_putHeaders (pre ++ putHeader pad (sealedHeader r)) (r.routing_key ++ r.payload ++ post) r.headers
    h.kv_sizes (headerSize + r.routing_key.length + r.payload.length)
  rw [List.length_append, putHeader_length] at hw
  rw [hfile]
  simp only [recordSize, sealedHeader, u16_toNat h.kv_count, u32_toNat h.routing_key, u32_toNat h.payload]
  simp only [sealedHeader] at hw
  rw [hw, recordBytes_length, bodyBytes]
  simp only [List.length_append]
  congr 1; omega

/-- Decoding the encoding of a record that fits gives the record back, with
the header the encoder sealed. -/
theorem decode_recordBytes (pad : Padding) (r : Record) (h : r.Fits) :
    decodeRecord (recordBytes pad r) = .ok { r with header := sealedHeader r } := by
  have hlen : ¬ (recordBytes pad r).length < headerSize := by rw [recordBytes_length]; omega
  have hdrop : (recordBytes pad r).drop headerSize = bodyBytes r := by
    rw [recordBytes, List.drop_left' (putHeader_length _ _)]
  have hcount : (sealedHeader r).header_kv_count.toNat = r.headers.length := u16_toNat h.kv_count
  have hkvs : readKvs r.headers.length (bodyBytes r) = .ok (r.headers, r.routing_key ++ r.payload) :=
    readKvs_putHeaders r.headers _ h.kv_sizes
  have hrk : (sealedHeader r).routing_key_size.toNat = r.routing_key.length := u32_toNat h.routing_key
  have hp : (sealedHeader r).payload_size.toNat = r.payload.length := u32_toNat h.payload
  have hpay : field (r.routing_key ++ r.payload) r.routing_key.length r.payload.length = r.payload := by
    rw [field_skip _ _ _ _ le_rfl, Nat.sub_self, field_all _ _ rfl]
  have hmagic : ¬ (magicOf (recordBytes pad r) ≠ kRecordMagic ∨ versionOf (recordBytes pad r) ≠ kRecordVersion) := by
    rw [recordBytes, magicOf_putHeader, versionOf_putHeader]; simp
  have hget : getHeader (recordBytes pad r) = sealedHeader r := getHeader_putHeader _ _ _
  simp only [decodeRecord, hlen, hmagic, if_false, hget, hdrop, hcount, hkvs, hrk, hp, hpay, List.take_left]
  rw [if_neg (by simp), if_neg (by simp [sealedHeader])]

/-! ## What the decoder accepts -/

theorem readKvs_sizes {n : Nat} {rest : Bytes} {kvs : List (Bytes × Bytes)} {rest' : Bytes}
    (h : readKvs n rest = .ok (kvs, rest')) :
    kvs.length = n ∧ ∀ kv ∈ kvs, kv.1.length < 2 ^ 32 ∧ kv.2.length < 2 ^ 32 := by
  induction n generalizing rest kvs rest' with
  | zero =>
    simp only [readKvs, Except.ok.injEq, Prod.mk.injEq] at h
    simp [← h.1]
  | succ n ih =>
    simp only [readKvs, corrupt] at h
    split at h
    · cases h
    · split at h
      · cases h
      · split at h
        · cases h
        · rename_i kvs' rest'' heq
          simp only [Except.ok.injEq, Prod.mk.injEq] at h
          obtain ⟨rfl, -⟩ := h
          obtain ⟨hl, hs⟩ := ih heq
          refine ⟨by simp [hl], ?_⟩
          intro kv hkv
          rcases List.mem_cons.1 hkv with rfl | hkv
          · have hk := (getU32 (field rest 0 4)).toNat_lt
            have hv := (getU32 (field rest 4 4)).toNat_lt
            simp only [List.length_take, field_length]
            omega
          · exact hs kv hkv

/-- Whatever the decoder accepts is within the format's limits. -/
theorem decodeRecord_fits {data : Bytes} {r : Record} (h : decodeRecord data = .ok r) : r.Fits := by
  simp only [decodeRecord, corrupt] at h
  split at h
  · cases h
  · split at h
    · cases h
    · split at h
      · cases h
      · rename_i headers rest heq
        split at h
        · cases h
        · split at h
          · cases h
          · simp only [Except.ok.injEq] at h
            subst h
            obtain ⟨hl, hs⟩ := readKvs_sizes heq
            have hc := (getHeader data).header_kv_count.toNat_lt
            have hr := (getHeader data).routing_key_size.toNat_lt
            have hp := (getHeader data).payload_size.toNat_lt
            refine ⟨?_, hs, ?_, ?_⟩
            · simp only [hl]; omega
            · simp only [List.length_take]; omega
            · simp only [field_length]; omega

end PomaiQueue.Storage
