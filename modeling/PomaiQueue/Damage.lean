import PomaiQueue.Rescan
import PomaiQueue.SegmentTheorems
/-!
# One altered byte

What `Open` and `Recover` make of a file of records in which one byte is not what
was written. The checksum covers the body of a record only. The offset, the time
and the id in its header are read back as they stand, and a changed count or size
frames other bytes (`Carries`). Any other change is noticed (`stuck_of_noticed`),
and the records before it are recovered as they were appended.
-/

namespace PomaiQueue.Storage

open Wire Posix

/-! ## Bytes with one of them replaced -/

theorem overwrite_byte {c : Bytes} {p : Nat} (h : p < c.length) (b : UInt8) : overwrite c p [b] = c.set p b := by
  rw [overwrite, Nat.sub_eq_zero_of_le (Nat.le_of_lt h), List.replicate_zero, List.append_nil, List.set_eq_take_append_cons_drop,
    if_pos h, List.append_assoc, List.length_singleton]
  rfl

theorem field_set {bs : Bytes} {i a n : Nat} (h : i < a ∨ a + n ≤ i) (b : UInt8) : field (bs.set i b) a n = field bs a n := by
  unfold field
  rcases h with h | h
  · rw [List.drop_set, if_pos h]
  · rw [List.drop_set, if_neg (by omega), List.take_set, List.set_eq_of_length_le]
    rw [List.length_take]
    omega

/-- Where two fields agree, so do their bytes. -/
theorem getElem?_of_field {x y : Bytes} {a n : Nat} (h : field x a n = field y a n) {i : Nat} (hge : a ≤ i) (hlt : i < a + n) :
    x[i]? = y[i]? := by
  have hx : ∀ z : Bytes, (field z a n)[i - a]? = z[i]? := by
    intro z
    rw [field, List.getElem?_take, if_pos (by omega), List.getElem?_drop, Nat.add_sub_cancel' hge]
  rw [← hx x, ← hx y, h]

/-! ## Another frame in the place of one -/

/-- The byte is in the offset, the time or the id of a record. -/
def InIdentity (i : Nat) : Prop := 24 ≤ i ∧ i < 56

instance (i : Nat) : Decidable (InIdentity i) := inferInstanceAs (Decidable (_ ∧ _))

instance (i : Nat) : Decidable (outsidePadding i) := inferInstanceAs (Decidable (_ ∨ _))

theorem getHeader_bytes (f : Frame) : getHeader f.bytes = sealedHeader f.2 := getHeader_putHeader _ _ _

theorem drop_bytes (f : Frame) : f.bytes.drop headerSize = bodyBytes f.2 := by
  rw [Frame.bytes, recordBytes, List.drop_left' (putHeader_length _ _)]

/-- The pairs at the front of a body, and what follows them. -/
theorem readKvs_body {f : Frame} (h : f.2.Fits) :
    readKvs f.2.headers.length (bodyBytes f.2) = .ok (f.2.headers, f.2.routing_key ++ f.2.payload) :=
  readKvs_putHeaders _ _ h.kv_sizes

/-- Pairs that end in the same place are as many. -/
theorem length_of_flatMap_putKv {a b : List (Bytes × Bytes)} (ha : ∀ kv ∈ a, kv.1.length < 2 ^ 32 ∧ kv.2.length < 2 ^ 32)
    (hb : ∀ kv ∈ b, kv.1.length < 2 ^ 32 ∧ kv.2.length < 2 ^ 32) (h : a.flatMap putKv = b.flatMap putKv) :
    a.length = b.length := by
  induction a generalizing b with
  | nil =>
    cases b with
    | nil => rfl
    | cons kv b =>
      have hlen := congrArg List.length h
      rw [List.flatMap_nil, List.length_nil, List.flatMap_cons, List.length_append, putKv_length kv (hb kv (by simp))] at hlen
      omega
  | cons kv a ih =>
    cases b with
    | nil =>
      have hlen := congrArg List.length h
      rw [List.flatMap_nil, List.length_nil, List.flatMap_cons, List.length_append, putKv_length kv (ha kv (by simp))] at hlen
      omega
    | cons kv' b =>
      have hone := readKvs_putHeaders [kv] (a.flatMap putKv)
        (fun x hx => ha x (List.mem_cons.2 (.inl (List.mem_singleton.1 hx))))
      have hone' := readKvs_putHeaders [kv'] (b.flatMap putKv)
        (fun x hx => hb x (List.mem_cons.2 (.inl (List.mem_singleton.1 hx))))
      rw [List.flatMap_cons] at h
      simp only [List.flatMap_cons, List.flatMap_nil, List.append_nil, List.length_singleton] at hone hone' h
      rw [h, hone'] at hone
      simp only [Except.ok.injEq, Prod.mk.injEq] at hone
      rw [List.length_cons, List.length_cons, ih (fun x hx => ha x (by simp [hx])) (fun x hx => hb x (by simp [hx])) hone.2.symm]

/-- Two frames with the same body and two of the three sizes have the third one, too. -/
theorem sizes_of_body {f g : Frame} (hf : f.2.Fits) (hg : g.2.Fits) (hbody : bodyBytes g.2 = bodyBytes f.2)
    (hcount : g.2.headers.length = f.2.headers.length ∨
      g.2.routing_key.length = f.2.routing_key.length ∧ g.2.payload.length = f.2.payload.length) :
    g.2.headers.length = f.2.headers.length ∧
      g.2.routing_key.length + g.2.payload.length = f.2.routing_key.length + f.2.payload.length := by
  have hlen := congrArg List.length hbody
  rw [bodyBytes, bodyBytes, List.length_append, List.length_append, List.length_append, List.length_append] at hlen
  rcases hcount with hcount | ⟨hkey, hpay⟩
  · have hread := readKvs_body hg
    rw [hbody, hcount, readKvs_body hf] at hread
    simp only [Except.ok.injEq, Prod.mk.injEq] at hread
    have hrest := congrArg List.length hread.2
    rw [List.length_append, List.length_append] at hrest
    exact ⟨hcount, hrest.symm⟩
  · -- The pairs end in the same place.
    have hpairs : g.2.headers.flatMap putKv = f.2.headers.flatMap putKv :=
      (List.append_inj hbody (by omega)).1
    exact ⟨length_of_flatMap_putKv hg.kv_sizes hf.kv_sizes hpairs, by omega⟩

/-- The fields of a frame that are fixed or that the encoder computes. -/
theorem fields_of_sizes {f g : Frame} (hbody : bodyBytes g.2 = bodyBytes f.2)
    (hcount : g.2.headers.length = f.2.headers.length) (hkey : g.2.routing_key.length = f.2.routing_key.length)
    (hpay : g.2.payload.length = f.2.payload.length) :
    field g.bytes 0 12 = field f.bytes 0 12 ∧ field g.bytes 16 8 = field f.bytes 16 8 ∧
      field g.bytes 56 4 = field f.bytes 56 4 := by
  have hseal : ∀ x : Frame, (sealedHeader x.2).header_kv_count = UInt16.ofNat x.2.headers.length ∧
      (sealedHeader x.2).payload_size = UInt32.ofNat x.2.payload.length ∧
      (sealedHeader x.2).routing_key_size = UInt32.ofNat x.2.routing_key.length ∧
      (sealedHeader x.2).crc64 = Crc64.compute (bodyBytes x.2) := fun x => ⟨rfl, rfl, rfl, rfl⟩
  have hlow : ∀ x : Frame, field x.bytes 0 12 = putU32 kRecordMagic ++ (putU16 kRecordVersion ++
      (putU16 (sealedHeader x.2).header_kv_count ++ putU32 (sealedHeader x.2).payload_size)) := by
    intro x
    rw [Frame.bytes, recordBytes, putHeader]
    simp only [List.append_assoc]
    rw [← List.append_assoc (putU16 (sealedHeader x.2).header_kv_count), ← List.append_assoc (putU16 kRecordVersion),
      ← List.append_assoc (putU32 kRecordMagic)]
    exact field_here _ _ _ (by simp)
  have hcrc : ∀ x : Frame, field x.bytes 16 8 = putU64 (sealedHeader x.2).crc64 := by
    intro x
    rw [Frame.bytes, recordBytes, putHeader]
    simp only [List.append_assoc]
    simp (disch := simp) only [field_skip, putU16_length, putU32_length, Nat.reduceSub, field_here]
  have hrk : ∀ x : Frame, field x.bytes 56 4 = putU32 (sealedHeader x.2).routing_key_size := by
    intro x
    rw [Frame.bytes, recordBytes, putHeader]
    simp only [List.append_assoc]
    simp (disch := simp) only [field_skip, putU16_length, putU32_length, Nat.reduceSub, field_here, putU64_length]
  simp only [hlow, hcrc, hrk, hseal, hbody, hcount, hkey, hpay, and_self]

/-- A byte of the body cannot be altered, because the checksum is the old one. -/
theorem altered_body {f g : Frame} {i : Nat} {b : UInt8} (hi : i < f.bytes.length) (hne : f.bytes[i]? ≠ some b)
    (h : g.bytes = f.bytes.set i b) : i < headerSize := by
  by_contra hin
  have hlen : i - headerSize < (bodyBytes f.2).length := by
    rw [Frame.bytes, recordBytes_length] at hi
    omega
  have hset : bodyBytes g.2 = (bodyBytes f.2).set (i - headerSize) b := by
    rw [← drop_bytes, ← drop_bytes, h, List.drop_set, if_neg hin]
  have hbyte : (bodyBytes f.2)[i - headerSize]? ≠ some b := by
    rwa [← drop_bytes, List.getElem?_drop, Nat.add_sub_cancel' (by omega)]
  have hget : getU64 (field g.bytes 16 8) = getU64 (field f.bytes 16 8) := by
    rw [h, field_set (by simp only [headerSize] at hin; omega)]
  have hcrc : ∀ x : Frame, getU64 (field x.bytes 16 8) = Crc64.compute (bodyBytes x.2) := by
    intro x
    change (getHeader x.bytes).crc64 = _
    rw [getHeader_bytes, sealedHeader]
  rw [hcrc, hcrc, hset] at hget
  exact compute_set_ne hlen hbyte hget

/-- If one byte of the header is altered and the frame is still one, its sizes
are the old ones. -/
theorem altered_sizes {f g : Frame} (hf : f.2.Fits) (hg : g.2.Fits) {i : Nat}
    (hsame : ∀ a n, i < a ∨ a + n ≤ i → field g.bytes a n = field f.bytes a n) (hbody : bodyBytes g.2 = bodyBytes f.2) :
    g.2.headers.length = f.2.headers.length ∧ g.2.routing_key.length = f.2.routing_key.length ∧
      g.2.payload.length = f.2.payload.length := by
  have hcount : ¬ (6 ≤ i ∧ i < 8) → g.2.headers.length = f.2.headers.length := by
    intro hout
    have hget := congrArg getU16 (hsame 6 2 (by omega))
    have hval : UInt16.ofNat g.2.headers.length = UInt16.ofNat f.2.headers.length :=
      (congrArg RecordHeader.header_kv_count (getHeader_bytes g)).symm.trans
        (hget.trans (congrArg RecordHeader.header_kv_count (getHeader_bytes f)))
    rw [← u16_toNat hg.kv_count, hval, u16_toNat hf.kv_count]
  have hpay : ¬ (8 ≤ i ∧ i < 12) → g.2.payload.length = f.2.payload.length := by
    intro hout
    have hget := congrArg getU32 (hsame 8 4 (by omega))
    have hval : UInt32.ofNat g.2.payload.length = UInt32.ofNat f.2.payload.length :=
      (congrArg RecordHeader.payload_size (getHeader_bytes g)).symm.trans
        (hget.trans (congrArg RecordHeader.payload_size (getHeader_bytes f)))
    rw [← u32_toNat hg.payload, hval, u32_toNat hf.payload]
  have hkey : ¬ (56 ≤ i ∧ i < 60) → g.2.routing_key.length = f.2.routing_key.length := by
    intro hout
    have hget := congrArg getU32 (hsame 56 4 (by omega))
    have hval : UInt32.ofNat g.2.routing_key.length = UInt32.ofNat f.2.routing_key.length :=
      (congrArg RecordHeader.routing_key_size (getHeader_bytes g)).symm.trans
        (hget.trans (congrArg RecordHeader.routing_key_size (getHeader_bytes f)))
    rw [← u32_toNat hg.routing_key, hval, u32_toNat hf.routing_key]
  -- The byte is in one of the sizes at most, and the other two give it.
  by_cases hc : 6 ≤ i ∧ i < 8
  · have hk := hkey (by omega)
    have hp := hpay (by omega)
    exact ⟨(sizes_of_body hf hg hbody (.inr ⟨hk, hp⟩)).1, hk, hp⟩
  · have hc := hcount hc
    have hsum := (sizes_of_body hf hg hbody (.inl hc)).2
    by_cases hp : 8 ≤ i ∧ i < 12
    · have hk := hkey (by omega)
      exact ⟨hc, hk, by omega⟩
    · have hp := hpay hp
      exact ⟨hc, by omega, hp⟩

/-- If a frame with one byte replaced is a frame, the byte is in the gaps of its
header or in what the checksum does not cover. -/
theorem altered_frame {f g : Frame} (hf : f.2.Fits) (hg : g.2.Fits) {i : Nat} {b : UInt8} (hi : i < f.bytes.length)
    (hne : f.bytes[i]? ≠ some b) (h : g.bytes = f.bytes.set i b) : ¬ outsidePadding i ∨ InIdentity i := by
  have hbyte : g.bytes[i]? = some b := by rw [h, List.getElem?_set_self hi]
  have hsame : ∀ a n, i < a ∨ a + n ≤ i → field g.bytes a n = field f.bytes a n := by
    intro a n hout
    rw [h, field_set hout]
  -- A field that is the same in both frames does not have the byte.
  have hdiff : ∀ a n, field g.bytes a n = field f.bytes a n → ¬ (a ≤ i ∧ i < a + n) := by
    rintro a n hfield ⟨hge, hlt⟩
    apply hne
    rw [← getElem?_of_field hfield hge hlt, hbyte]
  have hin := altered_body hi hne h
  have hbody : bodyBytes g.2 = bodyBytes f.2 := by rw [← drop_bytes, ← drop_bytes, h, List.drop_set, if_pos hin]
  obtain ⟨hcount, hkey, hpay⟩ := altered_sizes hf hg hsame hbody
  obtain ⟨hlow, hcrc, hrk⟩ := fields_of_sizes hbody hcount hkey hpay
  have h1 := hdiff 0 12 hlow
  have h2 := hdiff 16 8 hcrc
  have h3 := hdiff 56 4 hrk
  simp only [outsidePadding, InIdentity, headerSize] at hin ⊢
  omega

theorem withPadding_bytes (f : Frame) (pad : Padding) : withPadding pad f.bytes = Frame.bytes (pad, f.2) := by
  have hmagic : magicOf f.bytes = kRecordMagic := magicOf_putHeader _ _ _
  have hversion : versionOf f.bytes = kRecordVersion := versionOf_putHeader _ _ _
  rw [← putHeader_getHeader f.headerSize_le hmagic hversion, getHeader_bytes, drop_bytes]
  rfl

/-- A frame with a byte in the gaps of its header replaced is the same record. -/
theorem set_padding (f : Frame) {i : Nat} (h : ¬ outsidePadding i) (b : UInt8) :
    ∃ pad, f.bytes.set i b = Frame.bytes (pad, f.2) := by
  have hlen : headerSize ≤ (f.bytes.set i b).length := by rw [List.length_set]; exact f.headerSize_le
  simp only [outsidePadding, not_or, not_and_or] at h
  have hlow : (f.bytes.set i b).take 12 = f.bytes.take 12 := by
    rw [take_eq_field, take_eq_field, field_set (by omega)]
  have hmid : field (f.bytes.set i b) 16 44 = field f.bytes 16 44 := field_set (by omega) b
  have hbody : (f.bytes.set i b).drop headerSize = f.bytes.drop headerSize := by
    rw [List.drop_set, if_pos (by simp only [headerSize]; omega)]
  refine ⟨paddingOf (f.bytes.set i b), ?_⟩
  calc f.bytes.set i b = withPadding (paddingOf (f.bytes.set i b)) (f.bytes.set i b) := (withPadding_self hlen).symm
    _ = withPadding (paddingOf (f.bytes.set i b)) f.bytes := by rw [withPadding, hlow, hmid, hbody, ← withPadding]
    _ = Frame.bytes (paddingOf (f.bytes.set i b), f.2) := withPadding_bytes f _

/-- Where the identity of a record stands. -/
theorem identity_bytes (f : Frame) :
    getU64 (field f.bytes 24 8) = f.2.header.offset ∧ getU64 (field f.bytes 32 8) = f.2.header.enqueue_ts ∧
      getU64 (field f.bytes 40 8) = f.2.header.msg_id_high ∧ getU64 (field f.bytes 48 8) = f.2.header.msg_id_low := by
  change (getHeader f.bytes).offset = _ ∧ (getHeader f.bytes).enqueue_ts = _ ∧ (getHeader f.bytes).msg_id_high = _ ∧
    (getHeader f.bytes).msg_id_low = _
  rw [getHeader_bytes]
  exact ⟨rfl, rfl, rfl, rfl⟩

/-- The record of a frame in which a byte of the offset, the time or the id is replaced. -/
theorem set_identity (f : Frame) {i : Nat} (h : InIdentity i) {b : UInt8} (hne : f.bytes[i]? ≠ some b) :
    ∃ g : Frame, f.bytes.set i b = g.bytes ∧ (g.2.Fits ↔ f.2.Fits) ∧ ¬ g.2.SameContent f.2 ∧
      (g.2.header.offset ≠ f.2.header.offset → (g.2.withOffset f.2.header.offset).SameContent f.2) := by
  have hlen : headerSize ≤ (f.bytes.set i b).length := by rw [List.length_set]; exact f.headerSize_le
  have hi : i < f.bytes.length := by
    have hle := f.headerSize_le
    simp only [InIdentity, headerSize] at h hle
    omega
  have hout : outsidePadding i := .inr (.inl (by simp only [InIdentity] at h; omega))
  have hbyte : (f.bytes.set i b)[i]? = some b := List.getElem?_set_self hi
  have hsame : ∀ a n, i < a ∨ a + n ≤ i → field (f.bytes.set i b) a n = field f.bytes a n := fun a n hout => field_set hout b
  obtain ⟨hge, hlt⟩ := h
  have hbody : (f.bytes.set i b).drop headerSize = bodyBytes f.2 := by
    rw [List.drop_set, if_pos (by simp only [headerSize]; omega), drop_bytes]
  have hmagic : magicOf (f.bytes.set i b) = kRecordMagic := by
    rw [magicOf, hsame 0 4 (by omega)]
    exact magicOf_putHeader _ _ _
  have hversion : versionOf (f.bytes.set i b) = kRecordVersion := by
    rw [versionOf, hsame 4 2 (by omega)]
    exact versionOf_putHeader _ _ _
  generalize f.bytes.set i b = x at *
  -- The sizes and the checksum stand where they stood.
  have hheader : getHeader x = { sealedHeader f.2 with
      offset := getU64 (field x 24 8)
      enqueue_ts := getU64 (field x 32 8)
      msg_id_high := getU64 (field x 40 8)
      msg_id_low := getU64 (field x 48 8) } := by
    rw [← getHeader_bytes f, getHeader, hsame 6 2 (by omega), hsame 8 4 (by omega), hsame 16 8 (by omega), hsame 56 4 (by omega)]
    rfl
  have hold := identity_bytes f
  have hx : x = Frame.bytes (paddingOf x, { f.2 with header := { f.2.header with
      offset := getU64 (field x 24 8)
      enqueue_ts := getU64 (field x 32 8)
      msg_id_high := getU64 (field x 40 8)
      msg_id_low := getU64 (field x 48 8) } }) := by
    conv_lhs => rw [← withPadding_self hlen, ← putHeader_getHeader hlen hmagic hversion, hbody, hheader]
    rfl
  have hfits : ∀ header : RecordHeader, ({ f.2 with header } : Record).Fits ↔ f.2.Fits := fun header =>
    ⟨fun h => ⟨h.kv_count, h.kv_sizes, h.routing_key, h.payload⟩, fun h => ⟨h.kv_count, h.kv_sizes, h.routing_key, h.payload⟩⟩
  refine ⟨_, hx, hfits _, ?_, ?_⟩
  · -- The same record would have the same bytes outside the gaps.
    intro heq
    apply hne
    have h1 := heq.offset
    have h2 := heq.enqueue_ts
    have h3 := heq.msg_id_high
    have h4 := heq.msg_id_low
    dsimp only at h1 h2 h3 h4
    rw [h1, h2, h3, h4, ← withPadding_bytes] at hx
    rw [← hbyte, hx, withPadding_getElem? _ f.headerSize_le hout]
  · intro hoff
    dsimp only at hoff
    have hlow : i < 32 := by
      by_contra hhigh
      apply hoff
      rw [hsame 24 8 (by omega)]
      exact hold.1
    rw [hsame 32 8 (by omega), hsame 40 8 (by omega), hsame 48 8 (by omega), hold.2.1, hold.2.2.1, hold.2.2.2]
    exact ⟨rfl, rfl, rfl, rfl, rfl, rfl, rfl⟩

/-! ## What stands at the front of a record -/

/-- A header at the front of `rest` frames `size` bytes that have the checksum in it. -/
def Carries (rest : Bytes) (size : Nat) : Prop :=
  magicOf rest = kRecordMagic ∧ versionOf rest = kRecordVersion ∧
    recordSize rest 0 (getHeader rest) = some size ∧ size ≤ rest.length ∧
    Crc64.compute (field rest headerSize (size - headerSize)) = (getHeader rest).crc64

theorem carries_frame {g : Frame} (hg : g.2.Fits) (post : Bytes) : Carries (g.bytes ++ post) g.bytes.length := by
  have hhead : getHeader (g.bytes ++ post) = sealedHeader g.2 := by
    rw [Frame.bytes, recordBytes, List.append_assoc]
    exact getHeader_putHeader _ _ _
  have hbody : field (g.bytes ++ post) headerSize (g.bytes.length - headerSize) = bodyBytes g.2 := by
    rw [Frame.bytes, recordBytes_length, Nat.add_sub_cancel_left, recordBytes]
    have hmid := field_mid (putHeader g.1 (sealedHeader g.2)) (bodyBytes g.2) post _ rfl
    rwa [putHeader_length] at hmid
  refine ⟨?_, ?_, ?_, by rw [List.length_append]; exact Nat.le_add_right _ _, ?_⟩
  · rw [Frame.bytes, recordBytes, List.append_assoc]
    exact magicOf_putHeader _ _ _
  · rw [Frame.bytes, recordBytes, List.append_assoc]
    exact versionOf_putHeader _ _ _
  · rw [hhead]
    exact recordSize_recordBytes [] post g.1 g.2 hg
  · rw [hhead, hbody]
    rfl

/-- The scan stops at a record that is altered or does not fit, unless what it
takes for the record has its checksum by other means. -/
theorem stuck_of_noticed {f : Frame} {rest : Bytes} (h : ∀ g : Frame, g.2.Fits → g.bytes.length = f.bytes.length →
      g.bytes <+: rest → ¬ f.2.Fits) (hcarries : ∀ size, Carries rest size → f.2.Fits ∧ size = f.bytes.length) : Stuck rest := by
  rcases frame_or_stuck rest with ⟨g, hg, post, rfl⟩ | hstuck
  · obtain ⟨hfits, hlen⟩ := hcarries _ (carries_frame hg post)
    exact absurd hfits (h g hg hlen ⟨post, rfl⟩)
  · exact hstuck

/-! ## The records before the damage -/

/-- Record `k` is in the file as it was appended: it fits, and byte `p` is not one
of its own or in the gaps of its header. -/
def Kept (rs : List Record) (p k : Nat) : Prop :=
  ∀ r, rs[k]? = some r → r.Fits ∧
    (recordEnd rs k ≤ p → p < recordEnd rs (k + 1) → ¬ outsidePadding (p - recordEnd rs k))

/-- Whatever the header of record `k` frames in `file` with the right checksum is
the record, and byte `p` is not in its offset, time or id. -/
def Noticed (rs : List Record) (p : Nat) (file : Bytes) (k : Nat) : Prop :=
  ∀ r, rs[k]? = some r → ∀ size, Carries (file.drop (recordEnd rs k)) size →
    r.Fits ∧ size = frameSize r ∧ ¬ InIdentity (p - recordEnd rs k)

/-- The first record that is altered or does not fit is one that the scan stops
at. `file` is the file with byte `p` altered. -/
def Harmless (rs : List Record) (p : Nat) (file : Bytes) : Prop :=
  ∀ k < rs.length, (∀ j < k, Kept rs p j) → Kept rs p k ∨ Noticed rs p file k

section altered

variable {rs : List Frame} {p : Nat} {b : UInt8}

/-- Record `k` and its bytes. -/
theorem frame_at {k : Nat} {f : Frame} (h : rs[k]? = some f) : ∃ g : Frame, (stamped rs)[k]? = some g ∧
    (g.2.Fits ↔ f.2.Fits) ∧ g.bytes.length = frameSize f.2 ∧
    recordEnd (rs.map Prod.snd) (k + 1) = recordEnd (rs.map Prod.snd) k + g.bytes.length ∧
    field (layout (stamped rs)) (recordEnd (rs.map Prod.snd) k) g.bytes.length = g.bytes := by
  have hg : (stamped rs)[k]? = some (f.1, f.2.withOffset (UInt64.ofNat k)) := by rw [stamped_getElem?, h]; rfl
  refine ⟨_, hg, ⟨fun hf => ⟨hf.kv_count, hf.kv_sizes, hf.routing_key, hf.payload⟩, fun hf => hf.withOffset _⟩, ?_, ?_, ?_⟩
  · rw [Frame.bytes, recordBytes_length]
    rfl
  · rw [← layout_length, ← layout_length, List.take_add_one, hg, layout_append, List.length_append, Option.toList_some, layout_cons,
      layout_nil, List.append_nil]
  · rw [← layout_length, layout_split _ k _ hg]
    exact field_mid _ _ _ _ rfl

/-- Where all records are kept, the file holds the same records. -/
theorem layout_kept (k : Nat) (hk : k ≤ rs.length) (h : ∀ j < k, Kept (rs.map Prod.snd) p j) :
    ∃ frames : List Frame, frames.map Prod.snd = ((stamped rs).take k).map Prod.snd ∧
      (layout (stamped rs)).set p b =
        layout frames ++ ((layout (stamped rs)).set p b).drop (recordEnd (rs.map Prod.snd) k) := by
  induction k with
  | zero => exact ⟨[], rfl, by simp [recordEnd]⟩
  | succ k ih =>
    obtain ⟨frames, hrecords, hfile⟩ := ih (by omega) fun j hj => h j (by omega)
    obtain ⟨f, hf⟩ : ∃ f, rs[k]? = some f := ⟨rs[k], List.getElem?_eq_getElem (by omega)⟩
    obtain ⟨hfits, hpad⟩ := h k (by omega) f.2 (by rw [List.getElem?_map, hf]; rfl)
    obtain ⟨g, hg, -, -, hend, hfield⟩ := frame_at hf
    generalize hX : (layout (stamped rs)).set p b = X at *
    generalize recordEnd (rs.map Prod.snd) k = start at *
    -- The bytes of the record, with other bytes in the gaps at most.
    have hbytes : ∃ pad, field X start g.bytes.length = Frame.bytes (pad, g.2) := by
      by_cases hin : start ≤ p ∧ p < start + g.bytes.length
      · have hset : field X start g.bytes.length = g.bytes.set (p - start) b := by
          rw [← hX, field, List.drop_set, if_neg (by omega), List.take_set, ← field, hfield]
        obtain ⟨pad, hpad⟩ := set_padding g (hpad hin.1 (by omega)) b
        exact ⟨pad, hset.trans hpad⟩
      · refine ⟨g.1, ?_⟩
        rw [← hX, field_set (by omega), hfield]
    obtain ⟨pad, hbytes⟩ := hbytes
    refine ⟨frames ++ [(pad, g.2)], ?_, ?_⟩
    · rw [List.map_append, hrecords, List.take_add_one, hg, List.map_append]
      rfl
    · have hsplit : X.drop start = Frame.bytes (pad, g.2) ++ X.drop (start + g.bytes.length) := by
        rw [← hbytes, field, ← List.drop_drop, List.take_append_drop]
      rw [hend, layout_append, layout_cons, layout_nil, List.append_nil, List.append_assoc, ← hsplit]
      exact hfile

/-- The scan stops at the first record that is not kept. -/
theorem stuck_at {k : Nat} (hk : k < rs.length) (hne : (layout (stamped rs))[p]? ≠ some b)
    (hkept : ¬ Kept (rs.map Prod.snd) p k)
    (hnoticed : Noticed (rs.map Prod.snd) p ((layout (stamped rs)).set p b) k) :
    Stuck (((layout (stamped rs)).set p b).drop (recordEnd (rs.map Prod.snd) k)) := by
  obtain ⟨f, hf⟩ : ∃ f, rs[k]? = some f := ⟨rs[k], List.getElem?_eq_getElem hk⟩
  have hr : (rs.map Prod.snd)[k]? = some f.2 := by rw [List.getElem?_map, hf]; rfl
  obtain ⟨g, -, hfits, hsize, hend, hfield⟩ := frame_at hf
  have hrule := hnoticed f.2 hr
  unfold Kept at hkept
  rw [hend] at hkept
  generalize recordEnd (rs.map Prod.snd) k = start at *
  refine stuck_of_noticed (f := g) ?_ fun size hsize' => ?_
  · intro g' hg' hlen hpre hg
    obtain ⟨post, hpost⟩ := hpre
    -- The record fits, so the byte is one of its own and a reader looks at it.
    have hcarries := hrule _ (hpost ▸ carries_frame hg' post)
    have hin : start ≤ p ∧ p < start + g.bytes.length ∧ outsidePadding (p - start) := by
      by_contra hout
      apply hkept
      intro r hr'
      obtain rfl := Option.some.inj (hr.symm.trans hr')
      exact ⟨hfits.1 hg, fun h1 h2 h3 => hout ⟨h1, h2, h3⟩⟩
    have hset : g'.bytes = g.bytes.set (p - start) b := by
      have htake := congrArg (List.take g.bytes.length) hpost
      rw [← hlen, List.take_left, hlen, List.drop_set, if_neg (by omega), List.take_set, ← field, hfield] at htake
      exact htake
    have hbyte : g.bytes[p - start]? ≠ some b := by
      rw [← hfield, field, List.getElem?_take, if_pos (by omega), List.getElem?_drop, Nat.add_sub_cancel' hin.1]
      exact hne
    rcases altered_frame hg hg' (by omega) hbyte hset with hpad | hid
    · exact hpad hin.2.2
    · exact hcarries.2.2 hid
  · obtain ⟨h1, h2, -⟩ := hrule size hsize'
    exact ⟨hfits.2 h1, by rw [h2, hsize]⟩

/-- The altered file is records as they were appended, a first part of them, and a
place where the scan stops. -/
theorem exists_kept (hne : (layout (stamped rs))[p]? ≠ some b)
    (h : Harmless (rs.map Prod.snd) p ((layout (stamped rs)).set p b)) :
    ∃ k ≤ rs.length, ∃ frames : List Frame, ∃ junk, frames.map Prod.snd = ((stamped rs).take k).map Prod.snd ∧
      (layout (stamped rs)).set p b = layout frames ++ junk ∧ (∀ j < k, Kept (rs.map Prod.snd) p j) ∧ Stuck junk := by
  by_cases hall : ∀ k < rs.length, Kept (rs.map Prod.snd) p k
  · obtain ⟨frames, hrecords, hfile⟩ := layout_kept (b := b) rs.length le_rfl hall
    refine ⟨rs.length, le_rfl, frames, _, hrecords, hfile, hall, ?_⟩
    rw [List.drop_of_length_le]
    · intro pre fuel index next
      rw [List.append_nil, recoverLoop_end, if_pos rfl]
    · rw [List.length_set, ← layout_length, ← stamped_length rs, List.take_length]
  · -- The first record that is not kept.
    push Not at hall
    classical
    obtain ⟨hk, hnot⟩ := Nat.find_spec hall
    have hfirst : ∀ j < Nat.find hall, Kept (rs.map Prod.snd) p j := by
      intro j hj
      have hmin := Nat.find_min hall hj
      by_contra hnot'
      exact hmin ⟨by omega, hnot'⟩
    generalize Nat.find hall = k at *
    obtain ⟨frames, hrecords, hfile⟩ := layout_kept (b := b) k (Nat.le_of_lt hk) hfirst
    refine ⟨k, Nat.le_of_lt hk, frames, _, hrecords, hfile, hfirst, stuck_at hk hne hnot ?_⟩
    exact (h k (by rwa [List.length_map]) hfirst).resolve_left hnot

/-- Frames with the records of a numbered list are numbered. -/
theorem stamped_of_records {frames : List Frame} (h : frames.map Prod.snd = (stamped rs).map Prod.snd) :
    ∃ rs' : List Frame, frames = stamped rs' ∧ rs'.map Prod.snd = rs.map Prod.snd := by
  have hlen := congrArg List.length h
  rw [List.length_map, List.length_map, stamped_length] at hlen
  have hmap : ((frames.map Prod.fst).zip (rs.map Prod.snd)).map Prod.snd = rs.map Prod.snd :=
    List.map_snd_zip (by rw [List.length_map, List.length_map, hlen])
  refine ⟨(frames.map Prod.fst).zip (rs.map Prod.snd), ?_, hmap⟩
  apply List.ext_getElem?
  intro i
  have hi := congrArg (fun l => l[i]?) h
  simp only [List.getElem?_map, stamped_getElem?] at hi
  rw [stamped_getElem?, List.zip, List.getElem?_zipWith, List.getElem?_map, List.getElem?_map]
  cases hf : frames[i]? with
  | none => rfl
  | some f =>
    cases hr : rs[i]? with
    | none => rw [hf, hr] at hi; cases hi
    | some r =>
      rw [hf, hr] at hi
      have hi : f.2 = r.2.withOffset (UInt64.ofNat i) := Option.some.inj hi
      rw [← Prod.mk.eta (p := f), hi]
      rfl

end altered

/-! ## Recovery -/

/-- The log has a first part of `rs` under their own offsets and nothing else, and
its next offset is free. -/
def RecoversPrefix (log : SegmentLog) (fs : Fs) (rs : List Record) : Prop :=
  ∃ m ≤ rs.length, log.offsets = (List.range m).map UInt64.ofNat ∧
    (∀ i r, i < m → rs[i]? = some r → ∃ got, log.read fs (UInt64.ofNat i) = .ok got ∧ got.Is r i) ∧
    ∀ off ∈ log.offsets, off < log.next_offset

theorem Yields.recoversPrefix {log : SegmentLog} {fs : Fs} {rs : List Record} {m : Nat} (hm : m ≤ rs.length)
    (h : Yields log fs (rs.take m)) : RecoversPrefix log fs rs := by
  have hlen : (rs.take m).length = m := by rw [List.length_take, Nat.min_eq_left hm]
  have hoffs := h.offsets
  have hnext := h.next_offset
  rw [hlen] at hoffs hnext
  refine ⟨m, hm, hoffs, fun i r hi hr => h.read i r ?_, fun off hoff => ?_⟩
  · rw [List.getElem?_take, if_pos hi, hr]
  · rw [hoffs, List.mem_map] at hoff
    obtain ⟨i, hi, rfl⟩ := hoff
    rw [List.mem_range] at hi
    have := log.next_offset.toNat_lt
    rw [UInt64.lt_iff_toNat_lt, u64_toNat (by omega), hnext]
    exact hi

/-- Record `k` is the last one and the same as the one before it. -/
def Repeats (rs : List Record) (k : Nat) : Prop :=
  k + 1 = rs.length ∧ ∃ j r s, j + 1 = k ∧ rs[j]? = some r ∧ rs[k]? = some s ∧ (r.withOffset 0).SameContent (s.withOffset 0)

/-- The log was recovered from a file that has `g` in the place of record `k`. -/
structure Replaced (log : SegmentLog) (fs : Fs) (rs : List Frame) (k : Nat) (g : Frame) : Prop where
  small : rs.length < 2 ^ 64
  lt : k < rs.length
  fits : ∀ f ∈ rs, f.2.Fits
  fit : g.2.Fits
  fd : ∃ pos, log.fd = some pos
  index : log.offset_to_position = indexFrom 0 ((stamped rs).set k g) ∅
  next : log.next_offset = nextFrom 0 ((stamped rs).set k g)
  file : fs.content log.path = layout ((stamped rs).set k g)

section replaced

variable {log : SegmentLog} {fs : Fs} {rs : List Frame} {k m : Nat} {f g : Frame}

theorem mem_range_offsets {offsets : List UInt64} (h : offsets = (List.range m).map UInt64.ofNat) (hm : m < 2 ^ 64) (off : UInt64) :
    off ∈ offsets ↔ off.toNat < m := by
  rw [h, List.mem_map]
  constructor
  · rintro ⟨i, hi, rfl⟩
    rw [List.mem_range] at hi
    rwa [u64_toNat (by omega)]
  · intro hlt
    exact ⟨off.toNat, List.mem_range.2 hlt, UInt64.ofNat_toNat⟩

theorem set_stamped_fits (hfits : ∀ f ∈ rs, f.2.Fits) (hg : g.2.Fits) (k : Nat) : ∀ x ∈ (stamped rs).set k g, x.2.Fits := by
  intro x hx
  rcases List.mem_or_eq_of_mem_set hx with hx | rfl
  · exact stamped_fits hfits x hx
  · exact hg

theorem set_stamped_ne {j : Nat} (hj : j < rs.length) (hne : j ≠ k) :
    ((stamped rs).set k g)[j]? = some (rs[j].1, rs[j].2.withOffset (UInt64.ofNat j)) := by
  rw [List.getElem?_set_ne (Ne.symm hne), stamped_getElem?, List.getElem?_eq_getElem hj]
  rfl

/-- Every frame is in the index. -/
theorem Replaced.mem_offsets (h : Replaced log fs rs k g) {x : Frame} (hx : x ∈ (stamped rs).set k g) :
    x.2.header.offset ∈ log.offsets := by
  rw [SegmentLog.mem_offsets, h.index]
  exact indexFrom_has 0 ∅ (.inr ⟨x, hx, rfl⟩)

theorem Replaced.own_mem (h : Replaced log fs rs k g) : g.2.header.offset ∈ log.offsets :=
  h.mem_offsets (List.mem_set (by rw [stamped_length]; exact h.lt) g)

theorem Replaced.other_mem (h : Replaced log fs rs k g) {j : Nat} (hj : j < rs.length) (hne : j ≠ k) : UInt64.ofNat j ∈ log.offsets :=
  h.mem_offsets (List.mem_of_getElem? (set_stamped_ne hj hne))

/-- If offset `k` is in the index, it is `g` that is read there. -/
theorem Replaced.read_own (h : Replaced log fs rs k g) (hk : UInt64.ofNat k ∈ log.offsets) :
    g.2.header.offset = UInt64.ofNat k ∧ log.read fs (UInt64.ofNat k) = .ok g.stored := by
  obtain ⟨pos, hfd⟩ := h.fd
  have hlt := h.lt
  have hsmall := h.small
  obtain ⟨x, hx, hxo, hread⟩ := read_indexed hfd (set_stamped_fits h.fits h.fit k) h.index h.file hk
  obtain ⟨j, hj⟩ := List.mem_iff_getElem?.1 hx
  by_cases hjk : j = k
  · subst hjk
    rw [List.getElem?_set_self (by rwa [stamped_length])] at hj
    obtain rfl := Option.some.inj hj
    exact ⟨hxo, hread⟩
  · -- The other frames have other offsets.
    exfalso
    have hjlt : j < rs.length := by
      have := (List.getElem?_eq_some_iff.1 hj).1
      rwa [List.length_set, stamped_length] at this
    rw [set_stamped_ne hjlt hjk] at hj
    obtain rfl := Option.some.inj hj
    have heq : UInt64.ofNat j = UInt64.ofNat k := hxo
    apply hjk
    rw [← u64_toNat (show j < 2 ^ 64 by omega), heq, u64_toNat (by omega)]

theorem Replaced.set_last (h : Replaced log fs rs k g) (hlast : k + 1 = rs.length) :
    (stamped rs).set k g = (stamped rs).take k ++ [g] := by
  rw [List.set_eq_take_append_cons_drop, if_pos (by rw [stamped_length]; exact h.lt), List.drop_of_length_le]
  rw [stamped_length]
  omega

/-- The last record is read at the offset that it has now. -/
theorem Replaced.read_last (h : Replaced log fs rs k g) (hlast : k + 1 = rs.length) : log.read fs g.2.header.offset = .ok g.stored := by
  obtain ⟨pos, hfd⟩ := h.fd
  have hset := h.set_last hlast
  have hlookup : log.offset_to_position.lookup g.2.header.offset = some (layout ((stamped rs).take k)).length := by
    rw [h.index, hset, indexFrom_append, Nat.zero_add]
    exact AList.lookup_insert _
  apply read_frame log fs g.2.header.offset pos (layout ((stamped rs).take k)) [] g h.fit hfd hlookup
  rw [h.file, hset, layout_append, layout_cons, layout_nil, List.append_nil, List.append_nil]

/-- If the last record has another offset now and the next offset is still free,
it has the offset of the record before it. -/
theorem Replaced.offset_before (h : Replaced log fs rs k g) (hlast : k + 1 = rs.length) {j : Nat} (hj : k = j + 1)
    (hlow : g.2.header.offset.toNat < k) (hfree : ∀ off ∈ log.offsets, off < log.next_offset) :
    g.2.header.offset = UInt64.ofNat j := by
  have hsmall := h.small
  have hlt := hfree _ (h.other_mem (show j < rs.length by omega) (by omega))
  rw [h.next, h.set_last hlast, nextFrom_concat, UInt64.lt_iff_toNat_lt, u64_toNat (by omega), UInt64.toNat_add,
    show (1 : UInt64).toNat = 1 from rfl, Nat.mod_eq_of_lt (by omega)] at hlt
  apply UInt64.toNat_inj.1
  rw [u64_toNat (by omega)]
  omega

/-- A log whose file has another offset, time or id in the place of the one of
record `k` does not have the records that were appended. -/
theorem repeats_of_recoversPrefix (h : Replaced log fs rs k g) (hf : rs[k]? = some f)
    (hdiff : ¬ g.2.SameContent (f.2.withOffset (UInt64.ofNat k)))
    (hoff : g.2.header.offset ≠ UInt64.ofNat k →
      (g.2.withOffset (UInt64.ofNat k)).SameContent (f.2.withOffset (UInt64.ofNat k)))
    (hrec : RecoversPrefix log fs (rs.map Prod.snd)) : Repeats (rs.map Prod.snd) k := by
  obtain ⟨m, hm, hoffs, hread, hfree⟩ := hrec
  rw [List.length_map] at hm
  have hsmall := h.small
  have hlt := h.lt
  have hr : (rs.map Prod.snd)[k]? = some f.2 := by rw [List.getElem?_map, hf]; rfl
  have hmem := mem_range_offsets hoffs (by omega)
  have hothers : ∀ j, j < rs.length → j ≠ k → j < m := by
    intro j hj hne
    have := (hmem _).1 (h.other_mem hj hne)
    rwa [u64_toNat (by omega)] at this
  by_cases hkm : k < m
  · -- The record at offset `k` is read as it stands.
    exfalso
    obtain ⟨got, hgot, his⟩ := hread k f.2 hkm hr
    obtain ⟨ho, hown⟩ := h.read_own ((hmem _).2 (by rwa [u64_toNat (by omega)]))
    obtain rfl : g.stored = got := Except.ok.inj (hown.symm.trans hgot)
    exact hdiff ⟨ho, his.enqueue_ts, his.msg_id_high, his.msg_id_low, his.headers, his.routing_key, his.payload⟩
  · -- The record is found at a lower offset, which must be the last one.
    have hlast : k + 1 = rs.length := by
      by_contra hne
      have := hothers (k + 1) (by omega) (by omega)
      omega
    have hgm := (hmem _).1 h.own_mem
    have hgk : g.2.header.offset ≠ UInt64.ofNat k := by
      intro heq
      rw [heq, u64_toNat (by omega)] at hgm
      exact hkm hgm
    have hsame := hoff hgk
    obtain ⟨j, hj⟩ : ∃ j, k = j + 1 := Nat.exists_eq_succ_of_ne_zero (by omega)
    have hgj := h.offset_before hlast hj (by omega) hfree
    have hget : (rs.map Prod.snd)[j]? = some rs[j].2 := by
      rw [List.getElem?_map, List.getElem?_eq_getElem (by omega)]
      rfl
    obtain ⟨got, hgot, his⟩ := hread j rs[j].2 (hothers j (by omega) (by omega)) hget
    rw [← hgj] at hgot
    obtain rfl : g.stored = got := Except.ok.inj ((h.read_last hlast).symm.trans hgot)
    refine ⟨by rw [List.length_map]; exact hlast, j, rs[j].2, f.2, hj.symm, hget, hr, rfl, ?_, ?_, ?_, ?_, ?_, ?_⟩
    · exact his.enqueue_ts.symm.trans hsame.enqueue_ts
    · exact his.msg_id_high.symm.trans hsame.msg_id_high
    · exact his.msg_id_low.symm.trans hsame.msg_id_low
    · exact his.headers.symm.trans hsame.headers
    · exact his.routing_key.symm.trans hsame.routing_key
    · exact his.payload.symm.trans hsame.payload

end replaced

section holds

variable {log : SegmentLog} {fs : Fs} {rs : List Frame} {io : Io} {p : Nat} {b : UInt8}

theorem Holds.altered (hh : Holds log fs rs) (hp : p < (fs.content log.path).length) :
    (fs.call (.write log.path p [b])).content log.path = (layout (stamped rs)).set p b := by
  rw [← hh.content, ← overwrite_byte hp]
  simp [Fs.content, exec]

/-- The records before the damage are recovered. -/
theorem Holds.recovers (hh : Holds log fs rs) (policy : FsyncPolicy) (hopen : io.fault (.creat log.path) = none)
    (hp : p < (fs.content log.path).length) (hne : (fs.content log.path)[p]? ≠ some b)
    (h : Harmless (rs.map Prod.snd) p ((fs.call (.write log.path p [b])).content log.path)) :
    ∃ log' fs', SegmentLog.reopen io log.path policy (fs.call (.write log.path p [b])) = (.ok (), log', fs') ∧
      RecoversPrefix log' fs' (rs.map Prod.snd) := by
  have hlen := hh.length_lt
  rw [hh.content] at hne
  rw [hh.altered hp] at h
  obtain ⟨k, hk, frames, junk, hrecords, heq, hkept, hstuck⟩ := exists_kept hne h
  rw [stamped_take] at hrecords
  obtain ⟨rs', rfl, hrs⟩ := stamped_of_records hrecords
  rw [List.map_take] at hrs
  have hfit : ∀ f ∈ rs', f.2.Fits := by
    intro f hf
    have hmem : f.2 ∈ (rs.map Prod.snd).take k := hrs ▸ List.mem_map_of_mem hf
    obtain ⟨j, hj⟩ := List.mem_iff_getElem?.1 hmem
    rw [List.getElem?_take] at hj
    split at hj
    · rename_i hlt
      exact (hkept j hlt f.2 hj).1
    · cases hj
  have hrslen : rs'.length = k := by
    have := congrArg List.length hrs
    rwa [List.length_map, List.length_take, List.length_map, Nat.min_eq_left hk] at this
  obtain ⟨fs', hre, hdisk⟩ := reopen_eq io log.path policy _ _ hopen ((hh.altered hp).trans heq)
  rw [scan_stuck (stamped_fits hfit) hstuck (Nat.lt_succ_self _)] at hre hdisk
  refine ⟨_, fs', hre, ?_⟩
  have hleft : fs'.content log.path = layout (stamped rs') ++ [] := by
    rw [Fs.content, hdisk, Function.update_self, Option.getD_some, List.append_nil]
    by_cases hj : junk = []
    · simp [hj]
    · simp [hj]
  have hy := yields_of ⟨log.path, policy, some 0, nextFrom 0 (stamped rs'), indexFrom 0 (stamped rs') ∅⟩ fs' rs' 0 [] rfl hfit
    (by omega) (nextFrom_stamped rs') rfl hleft
  rw [hrs] at hy
  exact hy.recoversPrefix (by rw [List.length_map]; exact hk)

/-- What is recovered of a record with another offset, time or id. -/
theorem Holds.repeats (hh : Holds log fs rs) {policy : FsyncPolicy} (hopen : io.fault (.creat log.path) = none)
    (hfit : ∀ f ∈ rs, f.2.Fits) (hp : p < (fs.content log.path).length) (hne : (fs.content log.path)[p]? ≠ some b) {k : Nat}
    (hlow : recordEnd (rs.map Prod.snd) k ≤ p) (hhigh : p < recordEnd (rs.map Prod.snd) (k + 1))
    (hid : InIdentity (p - recordEnd (rs.map Prod.snd) k)) {log' : SegmentLog} {fs' : Fs}
    (hre : SegmentLog.reopen io log.path policy (fs.call (.write log.path p [b])) = (.ok (), log', fs'))
    (h : RecoversPrefix log' fs' (rs.map Prod.snd)) : Repeats (rs.map Prod.snd) k := by
  have hlen := hh.length_lt
  have hk : k < rs.length := by
    by_contra hge
    have htake : ∀ n, rs.length ≤ n → recordEnd (rs.map Prod.snd) n = (layout (stamped rs)).length := by
      intro n hn
      rw [← layout_length, List.take_of_length_le (by rwa [stamped_length])]
    rw [htake _ (by omega)] at hlow hhigh
    omega
  have hf : rs[k]? = some rs[k] := List.getElem?_eq_getElem hk
  obtain ⟨f, hfk, -, -, hend, hfield⟩ := frame_at hf
  obtain rfl : (rs[k].1, rs[k].2.withOffset (UInt64.ofNat k)) = f := by
    rw [stamped_getElem?, hf] at hfk
    exact Option.some.inj hfk
  have hsplit := layout_split _ k _ hfk
  rw [hend] at hhigh
  rw [← layout_length] at hlow hhigh hid hfield
  rw [hh.content] at hne
  have hbyte : (Frame.bytes (rs[k].1, rs[k].2.withOffset (UInt64.ofNat k)))[p - (layout ((stamped rs).take k)).length]? ≠ some b := by
    rw [← hfield, field, List.getElem?_take, if_pos (by omega), List.getElem?_drop, Nat.add_sub_cancel' hlow]
    exact hne
  obtain ⟨g, hg, hgfits, hdiff, hoff⟩ := set_identity _ hid hbyte
  have hgf : g.2.Fits := hgfits.2 ((hfit _ (List.getElem_mem hk)).withOffset _)
  have hset : (layout (stamped rs)).set p b = layout ((stamped rs).set k g) := by
    have hgk : ((stamped rs).set k g)[k]? = some g := List.getElem?_set_self (by rwa [stamped_length])
    rw [layout_split _ k _ hgk, List.take_set_of_le le_rfl, List.drop_set_of_lt (Nat.lt_succ_self k), ← hg, hsplit, List.append_assoc,
      List.set_append_right _ _ hlow, List.set_append_left _ _ (by omega), List.append_assoc]
  obtain ⟨fs1, hre1, hdisk⟩ := reopen_eq io log.path policy _ _ hopen ((hh.altered hp).trans hset)
  rw [scan_layout _ (set_stamped_fits hfit hgf k)] at hre1 hdisk
  rw [hre] at hre1
  obtain ⟨-, rfl, rfl⟩ := hre1
  refine repeats_of_recoversPrefix ⟨by omega, hk, hfit, hgf, ⟨_, rfl⟩, rfl, rfl, ?_⟩ hf hdiff hoff h
  rw [Fs.content, hdisk, Function.update_self]
  simp

end holds

/-- One byte of the file of a fresh log is altered. If the first record that is
altered or does not fit is one that the scan stops at, a new log recovers a first
part of the records, as they were appended. If the byte is in the offset, the time
or the id of a record, it does not, unless that is the last record and the same as
the one before it. -/
theorem damage_noticed (path : Path) (policy policy' : FsyncPolicy) (fs : Fs) (ops : List (Io × Record)) (io : Io) (p : Nat)
    (b : UInt8) (hnew : fs.disk path = none) (hok : AllOk (freshAppend path policy fs ops).1)
    (hopen : io.fault (.creat path) = none) (hp : p < ((freshAppend path policy fs ops).2.2.content path).length)
    (hne : ((freshAppend path policy fs ops).2.2.content path)[p]? ≠ some b) :
    (Harmless (ops.map Prod.snd) p (((freshAppend path policy fs ops).2.2.call (.write path p [b])).content path) →
      ∃ log' fs', SegmentLog.reopen io path policy' ((freshAppend path policy fs ops).2.2.call (.write path p [b])) =
        (.ok (), log', fs') ∧ RecoversPrefix log' fs' (ops.map Prod.snd)) ∧
    ∀ k, (∀ op ∈ ops, op.2.Fits) → recordEnd (ops.map Prod.snd) k ≤ p → p < recordEnd (ops.map Prod.snd) (k + 1) →
      InIdentity (p - recordEnd (ops.map Prod.snd) k) → ¬ Repeats (ops.map Prod.snd) k →
      ∀ log' fs', SegmentLog.reopen io path policy' ((freshAppend path policy fs ops).2.2.call (.write path p [b])) =
        (.ok (), log', fs') → ¬ RecoversPrefix log' fs' (ops.map Prod.snd) := by
  obtain ⟨hpath, hh⟩ := holds_freshAppend hnew hok
  generalize freshAppend path policy fs ops = run at hp hne hpath hh ⊢
  obtain ⟨results, log1, fs1⟩ := run
  dsimp only at hp hne hpath hh ⊢
  subst hpath
  rw [← appendFrame_snd]
  constructor
  · intro h
    exact hh.recovers policy' hopen hp hne h
  · intro k hfit hlow hhigh hid hrep log' fs' hre h
    exact hrep (hh.repeats hopen (appendFrame_fits hfit) hp hne hlow hhigh hid hre h)

/-- Two records of 65 bytes each. -/
def twoRecords : List (Io × Record) := [({}, { payload := [7] }), ({}, { payload := [8] })]

def twoRecordsRun : List (StatusOr UInt64) × SegmentLog × Fs := freshAppend [46, 47, 113] .kNever ⟨fun _ => none, []⟩ twoRecords

/-- The scan notices another payload. -/
theorem harmless_payload :
    Harmless (twoRecords.map Prod.snd) 64 ((twoRecordsRun.2.2.call (.write [46, 47, 113] 64 [5])).content [46, 47, 113]) := by
  have hout : ¬ Kept (twoRecords.map Prod.snd) 64 0 := by
    intro h
    exact (h _ rfl).2 (by decide) (by decide) (by decide)
  intro k hk hfirst
  cases k with
  | zero =>
    right
    intro r hr size hsize
    obtain rfl := Option.some.inj hr
    have hwalk := hsize.2.2.1
    have hval : recordSize (((twoRecordsRun.2.2.call (.write [46, 47, 113] 64 [5])).content [46, 47, 113]).drop 0) 0
        (getHeader (((twoRecordsRun.2.2.call (.write [46, 47, 113] 64 [5])).content [46, 47, 113]).drop 0)) = some 65 := by decide +kernel
    have heq := hval.symm.trans hwalk
    rw [Option.some.injEq] at heq
    exact ⟨by decide, heq.symm, by decide⟩
  | succ k => exact absurd (hfirst 0 (Nat.succ_pos k)) hout

/-- Another byte in the first payload: no record is recovered as something else. -/
theorem damage_noticed_payload : ∃ log' fs',
    SegmentLog.reopen {} [46, 47, 113] .kNever (twoRecordsRun.2.2.call (.write [46, 47, 113] 64 [5])) = (.ok (), log', fs') ∧
      RecoversPrefix log' fs' (twoRecords.map Prod.snd) :=
  (damage_noticed [46, 47, 113] .kNever .kNever ⟨fun _ => none, []⟩ twoRecords {} 64 5 rfl (by decide +kernel) rfl (by decide +kernel)
    (by decide +kernel)).1 harmless_payload

/-- One byte of the id of the first record is altered, and the record is recovered
with another id. -/
theorem altered_id_recovered : (twoRecordsRun.2.2.content [46, 47, 113])[40]? = some 0 ∧ ∃ log' fs',
    SegmentLog.reopen {} [46, 47, 113] .kNever (twoRecordsRun.2.2.call (.write [46, 47, 113] 40 [1])) = (.ok (), log', fs') ∧
      ¬ RecoversPrefix log' fs' (twoRecords.map Prod.snd) := by
  have hbyte : (twoRecordsRun.2.2.content [46, 47, 113])[40]? = some 0 := by decide +kernel
  obtain ⟨hpath, hh⟩ := @holds_freshAppend [46, 47, 113] .kNever ⟨fun _ => none, []⟩ twoRecords rfl (by decide +kernel)
  obtain ⟨log', fs', hre⟩ : ∃ log' fs',
      SegmentLog.reopen {} [46, 47, 113] .kNever (twoRecordsRun.2.2.call (.write [46, 47, 113] 40 [1])) =
        (.ok (), log', fs') := by
    generalize twoRecordsRun.2.2.call (.write [46, 47, 113] 40 [1]) = fs
    obtain ⟨fs', hre, -⟩ := reopen_eq {} [46, 47, 113] .kNever fs _ rfl rfl
    exact ⟨_, fs', hre⟩
  refine ⟨hbyte, log', fs', hre, fun h => ?_⟩
  have hrep := hh.repeats (b := 1) (k := 0) (p := 40) rfl (by decide) (by decide +kernel) (by
    rw [hpath]
    exact hbyte ▸ (by decide)) (by decide) (by decide) (by decide) (hpath ▸ hre) (by rw [appendFrame_snd]; exact h)
  obtain ⟨-, j, _, _, hj, -⟩ := hrep
  cases hj

end PomaiQueue.Storage
