import PomaiQueue.SegmentScan
/-!
# Framing a record

The size walk of `SegmentLog`, the encoder and the decoder agree. `Read` and
`Recover` add the sizes up in 64-bit arithmetic (`recordSize64`), which never
wraps (`recordSize64_eq`), so the model's walk over numbers is the walk of the
source. `record_framing` goes from a record to its bytes and back,
`encode_decode` from bytes that are one frame to the record and back.
-/

namespace PomaiQueue.Storage

open Wire Posix

/-! ## The walk in 64-bit arithmetic -/

/-- `kvWalk` with the `uint64_t` and `off_t` of the source. -/
def kvWalk64 (file : Bytes) : Nat → UInt64 → UInt64 → Option UInt64
  | 0, _, record_size => some record_size
  | n + 1, kv_cursor, record_size =>
    let sizes := pread file 8 kv_cursor.toNat
    if sizes.length < 8 then none
    else
      let step := 8 + (getU32 (field sizes 0 4)).toUInt64 + (getU32 (field sizes 4 4)).toUInt64
      kvWalk64 file n (kv_cursor + step) (record_size + step)

def recordSize64 (file : Bytes) (position : UInt64) (header : RecordHeader) : Option UInt64 :=
  kvWalk64 file header.header_kv_count.toNat (position + 64)
    (64 + header.routing_key_size.toUInt64 + header.payload_size.toUInt64)

/-- The most that one key/value pair adds. -/
def maxStep : Nat := 8 + 2 ^ 33

theorem toNat_step (a b : UInt32) :
    (8 + a.toUInt64 + b.toUInt64).toNat = 8 + a.toNat + b.toNat ∧ 8 + a.toNat + b.toNat ≤ maxStep := by
  have ha := a.toNat_lt
  have hb := b.toNat_lt
  refine ⟨?_, by rw [maxStep]; omega⟩
  simp only [UInt64.toNat_add, UInt32.toNat_toUInt64, UInt64.reduceToNat]
  omega

theorem kvWalk64_eq (file : Bytes) (n : Nat) (cursor size : UInt64) (hc : cursor.toNat + n * maxStep < 2 ^ 64)
    (hs : size.toNat + n * maxStep < 2 ^ 64) :
    kvWalk64 file n cursor size = (kvWalk file n cursor.toNat size.toNat).map UInt64.ofNat := by
  induction n generalizing cursor size with
  | zero =>
    rw [kvWalk64, kvWalk, Option.map_some, UInt64.ofNat_toNat]
  | succ n ih =>
    rw [Nat.add_mul, Nat.one_mul] at hc hs
    unfold kvWalk64 kvWalk
    dsimp only
    split
    · rfl
    · obtain ⟨hstep, hle⟩ := toNat_step (getU32 (field (pread file 8 cursor.toNat) 0 4))
        (getU32 (field (pread file 8 cursor.toNat) 4 4))
      have hadd : ∀ x : UInt64, x.toNat + (n * maxStep + maxStep) < 2 ^ 64 →
          (x + (8 + (getU32 (field (pread file 8 cursor.toNat) 0 4)).toUInt64 +
            (getU32 (field (pread file 8 cursor.toNat) 4 4)).toUInt64)).toNat =
          x.toNat + (8 + (getU32 (field (pread file 8 cursor.toNat) 0 4)).toNat +
            (getU32 (field (pread file 8 cursor.toNat) 4 4)).toNat) := by
        intro x hx
        rw [UInt64.toNat_add, hstep]
        exact Nat.mod_eq_of_lt (by omega)
      rw [ih _ _ (by rw [hadd cursor hc]; omega) (by rw [hadd size hs]; omega), hadd cursor hc, hadd size hs]

theorem kvWalk_le {file : Bytes} {n cursor size r : Nat} (h : kvWalk file n cursor size = some r) :
    size ≤ r ∧ r ≤ size + n * maxStep := by
  induction n generalizing cursor size with
  | zero =>
    rw [kvWalk] at h
    obtain rfl := Option.some.inj h
    omega
  | succ n ih =>
    unfold kvWalk at h
    dsimp only at h
    split at h
    · cases h
    · obtain ⟨hge, hle⟩ := ih h
      have hstep := (toNat_step (getU32 (field (pread file 8 cursor) 0 4)) (getU32 (field (pread file 8 cursor) 4 4))).2
      rw [Nat.add_mul, Nat.one_mul]
      omega

/-- What the walk starts with. -/
theorem toNat_fixed (header : RecordHeader) :
    (64 + header.routing_key_size.toUInt64 + header.payload_size.toUInt64).toNat =
      headerSize + header.routing_key_size.toNat + header.payload_size.toNat := by
  have hr := header.routing_key_size.toNat_lt
  have hp := header.payload_size.toNat_lt
  simp only [UInt64.toNat_add, UInt32.toNat_toUInt64, UInt64.reduceToNat, headerSize]
  omega

/-- A record is shorter than 2^50 bytes, whatever its sizes say. -/
theorem recordSize_lt {file : Bytes} {position : Nat} {header : RecordHeader} {size : Nat}
    (h : recordSize file position header = some size) : headerSize ≤ size ∧ size < 2 ^ 50 := by
  obtain ⟨hge, hle⟩ := kvWalk_le h
  have hc : header.header_kv_count.toNat < 2 ^ 16 := header.header_kv_count.toNat_lt
  have hr := header.routing_key_size.toNat_lt
  have hp := header.payload_size.toNat_lt
  have hmul : header.header_kv_count.toNat * maxStep ≤ (2 ^ 16 - 1) * maxStep := Nat.mul_le_mul_right _ (by omega)
  simp only [maxStep, headerSize] at hge hle hmul ⊢
  omega

/-- At every position that a file can have, the 64-bit walk computes the true size. -/
theorem recordSize64_eq (file : Bytes) (position : UInt64) (header : RecordHeader) (hpos : position.toNat ≤ maxOff) :
    recordSize64 file position header = (recordSize file position.toNat header).map UInt64.ofNat := by
  have hc : header.header_kv_count.toNat < 2 ^ 16 := header.header_kv_count.toNat_lt
  have hr := header.routing_key_size.toNat_lt
  have hp := header.payload_size.toNat_lt
  have hmul : header.header_kv_count.toNat * maxStep ≤ (2 ^ 16 - 1) * maxStep := Nat.mul_le_mul_right _ (by omega)
  have hcursor : (position + 64).toNat = position.toNat + headerSize := by
    rw [UInt64.toNat_add]
    simp only [UInt64.reduceToNat, headerSize, maxOff] at hpos ⊢
    omega
  unfold recordSize64 recordSize
  rw [kvWalk64_eq, hcursor, toNat_fixed]
  · rw [hcursor]
    simp only [maxStep, headerSize, maxOff] at *
    omega
  · rw [toNat_fixed]
    simp only [maxStep, headerSize] at *
    omega

/-! ## From a record to its bytes and back -/

/-- What the program keeps of a record when it is written and read: everything
but the sizes and the checksum, which the encoder sets. -/
structure Record.SameContent (a b : Record) : Prop where
  offset : a.header.offset = b.header.offset
  enqueue_ts : a.header.enqueue_ts = b.header.enqueue_ts
  msg_id_high : a.header.msg_id_high = b.header.msg_id_high
  msg_id_low : a.header.msg_id_low = b.header.msg_id_low
  headers : a.headers = b.headers
  routing_key : a.routing_key = b.routing_key
  payload : a.payload = b.payload

/-- The walk over the bytes of a record, whatever follows them, finds where they
end, and the decoder gives the record back. -/
theorem record_framing (pad : Padding) (r : Record) (h : r.Fits) (s : Bytes) :
    ∃ bytes size got, encodeRecord pad r = .ok bytes ∧
      recordSize64 (bytes ++ s) 0 (getHeader (pread (bytes ++ s) headerSize 0)) = some size ∧
      size.toNat = bytes.length ∧
      recordSize (bytes ++ s) 0 (getHeader (pread (bytes ++ s) headerSize 0)) = some bytes.length ∧
      decodeRecord ((bytes ++ s).take size.toNat) = .ok got ∧ got.SameContent r := by
  have hheader : getHeader (pread (recordBytes pad r ++ s) headerSize 0) = sealedHeader r := by
    have hread : pread (recordBytes pad r ++ s) headerSize 0 = putHeader pad (sealedHeader r) := by
      rw [recordBytes, List.append_assoc]
      exact field_here _ _ _ (putHeader_length _ _)
    rw [hread]
    exact getHeader_frame (pad, r)
  have hsize : recordSize (recordBytes pad r ++ s) 0 (sealedHeader r) = some (recordBytes pad r).length :=
    recordSize_recordBytes [] s pad r h
  have hlt : (recordBytes pad r).length < 2 ^ 64 := Nat.lt_trans (recordSize_lt hsize).2 (by decide)
  refine ⟨recordBytes pad r, UInt64.ofNat (recordBytes pad r).length, { r with header := sealedHeader r }, rfl, ?_, ?_, ?_, ?_,
    ⟨rfl, rfl, rfl, rfl, rfl, rfl, rfl⟩⟩
  · rw [hheader, recordSize64_eq _ _ _ (by decide), show (0 : UInt64).toNat = 0 from rfl, hsize]
    rfl
  · exact UInt64.toNat_ofNat_of_lt' hlt
  · rw [hheader]
    exact hsize
  · rw [UInt64.toNat_ofNat_of_lt' hlt, List.take_left]
    exact decode_recordBytes pad r h

theorem record_framing_small :
    ∃ bytes size got, encodeRecord {} { payload := [7], headers := [([1], [])] } = .ok bytes ∧
      recordSize64 (bytes ++ [9]) 0 (getHeader (pread (bytes ++ [9]) headerSize 0)) = some size ∧
      size.toNat = bytes.length ∧
      recordSize (bytes ++ [9]) 0 (getHeader (pread (bytes ++ [9]) headerSize 0)) = some bytes.length ∧
      decodeRecord ((bytes ++ [9]).take size.toNat) = .ok got ∧ got.SameContent { payload := [7], headers := [([1], [])] } :=
  record_framing {} { payload := [7], headers := [([1], [])] } (by decide) [9]

/-! ## From bytes to a record and back -/

/-- The buffer with other bytes in the gaps of its header. -/
def withPadding (pad : Padding) (b : Bytes) : Bytes :=
  b.take 12 ++ (putU32 pad.gap ++ (field b 16 44 ++ (putU32 pad.tail ++ b.drop headerSize)))

/-- The byte is one that some reader of the header looks at, or behind the header. -/
def outsidePadding (i : Nat) : Prop := i < 12 ∨ 16 ≤ i ∧ i < 60 ∨ 64 ≤ i

/-- A header is written as it was read. -/
theorem putHeader_getHeader {b : Bytes} (hlen : headerSize ≤ b.length) (hmagic : magicOf b = kRecordMagic)
    (hversion : versionOf b = kRecordVersion) (pad : Padding) :
    putHeader pad (getHeader b) ++ b.drop headerSize = withPadding pad b := by
  have hf : ∀ i n, i + n ≤ headerSize → (field b i n).length = n := by
    intro i n hin
    rw [field_length]
    omega
  have hm : putU32 kRecordMagic = field b 0 4 := by
    rw [← hmagic, magicOf, putU32_getU32 (hf 0 4 (by decide))]
  have hv : putU16 kRecordVersion = field b 4 2 := by
    rw [← hversion, versionOf, putU16_getU16 (hf 4 2 (by decide))]
  have hlow : b.take 12 = field b 0 4 ++ (field b 4 2 ++ (field b 6 2 ++ field b 8 4)) := by
    rw [take_eq_field, show (12 : Nat) = 4 + (2 + (2 + 4)) from rfl, field_append, field_append, field_append]
  have hhigh : field b 16 44 =
      field b 16 8 ++ (field b 24 8 ++ (field b 32 8 ++ (field b 40 8 ++ (field b 48 8 ++ field b 56 4)))) := by
    rw [show (44 : Nat) = 8 + (8 + (8 + (8 + (8 + 4)))) from rfl, field_append, field_append, field_append, field_append,
      field_append]
  unfold putHeader getHeader withPadding
  rw [hm, hv, hlow, hhigh]
  simp only [putU16_getU16 (hf 6 2 (by decide)), putU32_getU32 (hf 8 4 (by decide)), putU64_getU64 (hf 16 8 (by decide)),
    putU64_getU64 (hf 24 8 (by decide)), putU64_getU64 (hf 32 8 (by decide)), putU64_getU64 (hf 40 8 (by decide)),
    putU64_getU64 (hf 48 8 (by decide)), putU32_getU32 (hf 56 4 (by decide)), List.append_assoc]

/-- The decoder's loop reads pairs as they are written. -/
theorem readKvs_ok {n : Nat} {rest rest' : Bytes} {kvs : List (Bytes × Bytes)} (h : readKvs n rest = .ok (kvs, rest')) :
    kvs.length = n ∧ rest = kvs.flatMap putKv ++ rest' := by
  induction n generalizing rest kvs rest' with
  | zero =>
    simp only [readKvs, Except.ok.injEq, Prod.mk.injEq] at h
    obtain ⟨rfl, rfl⟩ := h
    exact ⟨rfl, rfl⟩
  | succ n ih =>
    simp only [readKvs, corrupt] at h
    split at h
    · cases h
    · rename_i h8
      split at h
      · cases h
      · rename_i hroom
        split at h
        · cases h
        · rename_i kvs' rest'' heq
          simp only [Except.ok.injEq, Prod.mk.injEq] at h
          obtain ⟨rfl, rfl⟩ := h
          obtain ⟨hlen, hrest⟩ := ih heq
          refine ⟨by rw [List.length_cons, hlen], ?_⟩
          generalize hk : (getU32 (field rest 0 4)).toNat = k at *
          generalize hv : (getU32 (field rest 4 4)).toNat = v at *
          have hklen : ((rest.drop 8).take k).length = k := by
            rw [List.length_take]
            omega
          have hvlen : (field (rest.drop 8) k v).length = v := by
            rw [field_length]
            omega
          have hput : putKv ((rest.drop 8).take k, field (rest.drop 8) k v) =
              field rest 0 4 ++ (field rest 4 4 ++ ((rest.drop 8).take k ++ field (rest.drop 8) k v)) := by
            have hf : ∀ i, i + 4 ≤ 8 → (field rest i 4).length = 4 := by
              intro i hi
              rw [field_length]
              omega
            simp only [putKv, hklen, hvlen]
            rw [← hk, ← hv, UInt32.ofNat_toNat, UInt32.ofNat_toNat, putU32_getU32 (hf 0 (by decide)),
              putU32_getU32 (hf 4 (by decide)), hk, hv, List.take_of_length_le (Nat.le_of_eq hklen),
              List.take_of_length_le (Nat.le_of_eq hvlen)]
          have hpair : (rest.drop 8).take k ++ field (rest.drop 8) k v = (rest.drop 8).take (k + v) := by
            rw [field, List.take_add]
          rw [List.flatMap_cons, hput, List.append_assoc, List.append_assoc, hpair, List.append_assoc, ← hrest,
            List.take_append_drop, ← List.append_assoc, ← field_append, ← take_eq_field, List.take_append_drop]

/-- What the decoder has checked when it accepts. -/
theorem decodeRecord_ok {data : Bytes} {r : Record} (h : decodeRecord data = .ok r) :
    headerSize ≤ data.length ∧ magicOf data = kRecordMagic ∧ versionOf data = kRecordVersion ∧
      ∃ rest, readKvs (getHeader data).header_kv_count.toNat (data.drop headerSize) = .ok (r.headers, rest) ∧
        (getHeader data).routing_key_size.toNat + (getHeader data).payload_size.toNat ≤ rest.length ∧
        Crc64.compute (data.drop headerSize) = (getHeader data).crc64 ∧ r.header = getHeader data ∧
        r.routing_key = rest.take (getHeader data).routing_key_size.toNat ∧
        r.payload = field rest (getHeader data).routing_key_size.toNat (getHeader data).payload_size.toNat := by
  simp only [decodeRecord, corrupt] at h
  split at h
  · cases h
  · rename_i hlen
    split at h
    · cases h
    · rename_i hmagic
      rw [not_or, not_not, not_not] at hmagic
      split at h
      · cases h
      · rename_i headers rest heq
        split at h
        · cases h
        · rename_i hroom
          split at h
          · cases h
          · rename_i hcrc
            obtain rfl := Except.ok.inj h
            exact ⟨Nat.le_of_not_lt hlen, hmagic.1, hmagic.2, rest, heq, Nat.le_of_not_lt hroom, not_not.1 hcrc, rfl, rfl, rfl⟩

theorem field_take {bs : Bytes} {i n k : Nat} (h : i + n ≤ k) : field (bs.take k) i n = field bs i n := by
  rw [field, field, List.drop_take, List.take_take, Nat.min_eq_left (by omega)]

/-- The header is in the first 64 bytes. -/
theorem getHeader_take (b : Bytes) : getHeader (b.take headerSize) = getHeader b := by
  unfold getHeader
  simp (disch := decide) only [field_take]

/-- The buffer is as long as the walk over it says. -/
def Framed (b : Bytes) : Prop := recordSize b 0 (getHeader (pread b headerSize 0)) = some b.length

instance (b : Bytes) : Decidable (Framed b) :=
  inferInstanceAs (Decidable (recordSize b 0 (getHeader (pread b headerSize 0)) = some b.length))

/-- The walk over pairs that the decoder reads adds up exactly their bytes. -/
theorem recordSize_of_readKvs {b rest : Bytes} {kvs : List (Bytes × Bytes)} (hlen : headerSize ≤ b.length)
    (h : readKvs (getHeader b).header_kv_count.toNat (b.drop headerSize) = .ok (kvs, rest)) :
    recordSize b 0 (getHeader b) =
      some (headerSize + (getHeader b).routing_key_size.toNat + (getHeader b).payload_size.toNat +
        (kvs.flatMap putKv).length) := by
  obtain ⟨hcount, hbody⟩ := readKvs_ok h
  have hb : b = b.take headerSize ++ kvs.flatMap putKv ++ rest := by
    rw [List.append_assoc, ← hbody, List.take_append_drop]
  have hpre : (b.take headerSize).length = headerSize := by
    rw [List.length_take]
    omega
  have hwalk := kvWalk_putHeaders (b.take headerSize) rest kvs (readKvs_sizes h).2
    (headerSize + (getHeader b).routing_key_size.toNat + (getHeader b).payload_size.toNat)
  rw [← hb, hpre, hcount] at hwalk
  rw [recordSize, Nat.zero_add]
  exact hwalk

/-- Encoding what was decoded from a frame gives the frame back. -/
theorem encode_of_decode {b : Bytes} {r : Record} (hf : Framed b) (hd : decodeRecord b = .ok r) (pad : Padding) :
    encodeRecord pad r = .ok (withPadding pad b) := by
  obtain ⟨hlen, hmagic, hversion, rest, hkvs, hroom, hcrc, hheader, hkey, hpay⟩ := decodeRecord_ok hd
  obtain ⟨hcount, hbody⟩ := readKvs_ok hkvs
  -- The frame ends where the payload does.
  have hsize := recordSize_of_readKvs hlen hkvs
  have hread : getHeader (pread b headerSize 0) = getHeader b := by
    rw [pread, ← take_eq_field, getHeader_take]
  rw [Framed, hread] at hf
  have heq := Option.some.inj (hf.symm.trans hsize)
  have hdrop := congrArg List.length hbody
  rw [List.length_drop, List.length_append] at hdrop
  have hrest : rest.length = (getHeader b).routing_key_size.toNat + (getHeader b).payload_size.toNat := by omega
  have hklen : r.routing_key.length = (getHeader b).routing_key_size.toNat := by
    rw [hkey, List.length_take]
    omega
  have hplen : r.payload.length = (getHeader b).payload_size.toNat := by
    rw [hpay, field_length]
    omega
  have hjoin : r.routing_key ++ r.payload = rest := by
    have hall : field rest (getHeader b).routing_key_size.toNat (getHeader b).payload_size.toNat =
        rest.drop (getHeader b).routing_key_size.toNat := by
      rw [field]
      apply List.take_of_length_le
      rw [List.length_drop]
      omega
    rw [hkey, hpay, hall, List.take_append_drop]
  have hbytes : bodyBytes r = b.drop headerSize := by rw [bodyBytes, hjoin, hbody]
  have hseal : sealedHeader r = getHeader b := by
    rw [sealedHeader, hbytes, hcrc, hplen, hcount, hklen, hheader, UInt32.ofNat_toNat, UInt32.ofNat_toNat, UInt16.ofNat_toNat]
  rw [encodeRecord, recordBytes, hseal, hbytes, putHeader_getHeader hlen hmagic hversion]

/-- Only the gaps of the header can be told apart by the padding. -/
theorem withPadding_getElem? (pad : Padding) {b : Bytes} (hlen : headerSize ≤ b.length) {i : Nat} (h : outsidePadding i) :
    (withPadding pad b)[i]? = b[i]? := by
  have h12 : (b.take 12).length = 12 := by
    rw [List.length_take]
    simp only [headerSize] at hlen
    omega
  have h44 : (field b 16 44).length = 44 := by
    rw [field_length]
    simp only [headerSize] at hlen
    omega
  unfold withPadding
  rcases h with hi | ⟨hge, hlt⟩ | hge
  · rw [List.getElem?_append_left (by omega), List.getElem?_take, if_pos hi]
  · rw [List.getElem?_append_right (by omega), List.getElem?_append_right (by rw [putU32_length]; omega),
      List.getElem?_append_left (by rw [h12, putU32_length, h44]; omega), h12, putU32_length, field, List.getElem?_take,
      if_pos (by omega), List.getElem?_drop]
    congr 1
    omega
  · rw [List.getElem?_append_right (by omega), List.getElem?_append_right (by rw [putU32_length]; omega),
      List.getElem?_append_right (by rw [h12, putU32_length, h44]; omega),
      List.getElem?_append_right (by rw [h12, putU32_length, h44, putU32_length]; omega), h12, h44, putU32_length, putU32_length,
      List.getElem?_drop]
    congr 1
    simp only [headerSize]
    omega

/-- A buffer that is one frame and that the decoder accepts is the encoding of the
record, up to the padding, and no other such buffer has the same record. -/
theorem encode_decode (b : Bytes) (r : Record) (hf : Framed b) (hd : decodeRecord b = .ok r) :
    (∀ pad, encodeRecord pad r = .ok (withPadding pad b)) ∧
      (∀ pad i, outsidePadding i → (withPadding pad b)[i]? = b[i]?) ∧
      ∀ b', Framed b' → decodeRecord b' = .ok r → b'.length = b.length ∧ ∀ i, outsidePadding i → b'[i]? = b[i]? := by
  have hlen := (decodeRecord_ok hd).1
  refine ⟨encode_of_decode hf hd, fun pad i hi => withPadding_getElem? pad hlen hi, fun b' hf' hd' => ?_⟩
  have hlen' := (decodeRecord_ok hd').1
  have hsame : withPadding {} b' = withPadding {} b :=
    Except.ok.inj ((encode_of_decode hf' hd' {}).symm.trans (encode_of_decode hf hd {}))
  refine ⟨?_, fun i hi => ?_⟩
  · have hsize := congrArg List.length hsame
    simp only [withPadding, List.length_append, List.length_take, List.length_drop, field_length, putU32_length,
      headerSize] at hsize hlen hlen'
    omega
  · rw [← withPadding_getElem? {} hlen' hi, hsame, withPadding_getElem? {} hlen hi]

/-- The bytes of a record with one key/value pair. -/
def someFrame : Bytes := recordBytes {} { payload := [7], headers := [([1], [])] }

theorem encode_decode_small :
    ∃ r, decodeRecord someFrame = .ok r ∧ (∀ pad, encodeRecord pad r = .ok (withPadding pad someFrame)) ∧
      (∀ pad i, outsidePadding i → (withPadding pad someFrame)[i]? = someFrame[i]?) ∧
      ∀ b', Framed b' → decodeRecord b' = .ok r →
        b'.length = someFrame.length ∧ ∀ i, outsidePadding i → b'[i]? = someFrame[i]? := by
  have hfits : ({ payload := [7], headers := [([1], [])] } : Record).Fits := by decide
  have hd := decode_recordBytes {} _ hfits
  have hf : Framed someFrame := by decide +kernel
  exact ⟨_, hd, encode_decode someFrame _ hf hd⟩

end PomaiQueue.Storage
