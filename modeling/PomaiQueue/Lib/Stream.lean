import PomaiQueue.Lib.Wire
/-!
# Input streams

A stream over a byte string with the end-of-file behaviour of
`std::ifstream::read`: a short read hands over what is left, marks the stream,
and later reads hand over nothing.

`Parses r f a` says that the reader `r` takes exactly the bytes `f` off a stream
and gives `a`. `Tears r f` says what it does with a cut-off copy of `f`: it
does not throw, and leaves the stream marked or still inside what was cut off.
-/

namespace Wire

/-- What is left to read, and whether a read has come up short (`eofbit` and
`failbit` are only ever set together here). -/
structure IStream where
  rest : Bytes
  eof : Bool := false

namespace IStream

/-- `in.read(p, n)`: the bytes stored at `p`, and the stream after it. -/
def read (s : IStream) (n : Nat) : Bytes × IStream :=
  if s.eof then ([], s)
  else if s.rest.length < n then (s.rest, ⟨[], true⟩)
  else (s.rest.take n, ⟨s.rest.drop n, false⟩)

/-- A field that is there in full is read in full. -/
theorem read_append (f m : Bytes) (n : Nat) (h : f.length = n) : read ⟨f ++ m, false⟩ n = (f, ⟨m, false⟩) := by
  subst h
  simp [read]

theorem read_length_le (s : IStream) (n : Nat) : (s.read n).1.length ≤ n := by
  unfold read
  split
  · exact Nat.zero_le n
  · split
    · rename_i hl
      exact Nat.le_of_lt hl
    · exact List.length_take_le n s.rest

/-- Nothing comes from a stream that ran out. -/
theorem read_eof {s : IStream} (h : s.eof = true) (n : Nat) : s.read n = ([], s) := by
  rw [read, if_pos h]

/-- A stream that ran out, or holds only a part of `m`. -/
def Torn (s : IStream) (m : Bytes) : Prop :=
  s.eof = true ∨ s.eof = false ∧ s.rest <+: m ∧ s.rest.length < m.length

theorem Torn.eof {s : IStream} (h : Torn s []) : s.eof = true := by
  rcases h with h | ⟨-, -, h⟩
  · exact h
  · simp at h

/-- Reading a field from a cut-off copy gives a cut-off field, the whole one
if the stream is not marked after it. -/
theorem Torn.read {s : IStream} {f m : Bytes} {n : Nat} (hn : f.length = n) (h : Torn s (f ++ m)) :
    (s.read n).1 <+: f ∧ Torn (s.read n).2 m ∧ ((s.read n).2.eof = false → (s.read n).1 = f) := by
  subst hn
  rcases h with he | ⟨he, ⟨t, ht⟩, hlt⟩
  · simp [IStream.read_eof he, Torn, he]
  · by_cases hl : s.rest.length < f.length
    · simp only [IStream.read, he, hl, if_true, Bool.false_eq_true, if_false]
      exact ⟨List.prefix_of_prefix_length_le ⟨t, ht⟩ (List.prefix_append f m) (by omega), .inl rfl, by simp⟩
    · obtain ⟨u, hu⟩ : f <+: s.rest :=
        List.prefix_of_prefix_length_le (List.prefix_append f m) ⟨t, ht⟩ (by omega)
      simp only [IStream.read, he, hl, Bool.false_eq_true, if_false]
      rw [← hu, List.append_assoc, List.append_cancel_left_eq] at ht
      rw [← hu, List.length_append, List.length_append] at hlt
      rw [← hu, List.take_left, List.drop_left]
      exact ⟨List.prefix_rfl, .inr ⟨rfl, ⟨t, ht⟩, Nat.lt_of_add_lt_add_left hlt⟩, fun _ => rfl⟩

end IStream

/-! ## Strings -/

/-- `std::string::max_size()`. -/
def maxSize : Nat := 2 ^ 63 - 2

/-- A `std::string`, which is never longer than `maxSize`. -/
abbrev CString := { bs : Bytes // bs.length ≤ maxSize }

/-! ## Readers -/

/-- A computation that reads from a stream and may throw. -/
abbrev Reader (ε α : Type) := StateT IStream (Except ε) α

namespace Reader

variable {ε α β : Type}

def bytes (n : Nat) : Reader ε Bytes := fun s => .ok (s.read n)

def u32 : Reader ε UInt32 := do return getU32 (← bytes 4)

def u64 : Reader ε UInt64 := do return getU64 (← bytes 8)

theorem u32_run (s : IStream) : (u32 : Reader ε UInt32) s = .ok (getU32 (s.read 4).1, (s.read 4).2) := rfl

theorem u64_run (s : IStream) : (u64 : Reader ε UInt64) s = .ok (getU64 (s.read 8).1, (s.read 8).2) := rfl

/-- `str.resize(n)` and `in.read(str.data(), n)`: the zeros of the resize stay
where the read comes up short. -/
def string (tooLong : ε) (n : Nat) : Reader ε CString := fun s =>
  if h : n ≤ maxSize then
    .ok (⟨(s.read n).1 ++ List.replicate (n - (s.read n).1.length) 0, by
      have := s.read_length_le n
      simp only [List.length_append, List.length_replicate]
      omega⟩, (s.read n).2)
  else .error tooLong

/-- A length and then a string of that length. -/
def sized (tooLong : ε) : Reader ε CString := do string tooLong (← u64).toNat

theorem bind_ok {r : Reader ε α} {k : α → Reader ε β} {s s' : IStream} {b : β} (h : (r >>= k) s = .ok (b, s')) :
    ∃ a s1, r s = .ok (a, s1) ∧ k a s1 = .ok (b, s') := by
  simp only [Bind.bind, StateT.bind, Except.bind] at h
  split at h
  · cases h
  · rename_i p hp
    exact ⟨p.1, p.2, hp, h⟩

/-- On a stream that starts with `f`, `r` takes `f` and gives `a`. -/
def Parses (r : Reader ε α) (f : Bytes) (a : α) : Prop :=
  ∀ m : Bytes, r ⟨f ++ m, false⟩ = .ok (a, ⟨m, false⟩)

theorem parses_pure (a : α) : Parses (pure a : Reader ε α) [] a := fun _ => rfl

theorem Parses.bind {r : Reader ε α} {k : α → Reader ε β} {f f' : Bytes} {a : α} {b : β} (h : Parses r f a)
    (h' : Parses (k a) f' b) : Parses (r >>= k) (f ++ f') b := by
  intro m
  have := h (f' ++ m)
  rw [List.append_assoc]
  simp only [Bind.bind, StateT.bind, Except.bind, this]
  exact h' m

theorem parses_u32 (x : UInt32) : Parses (u32 : Reader ε UInt32) (putU32 x) x := by
  intro m
  rw [u32_run, IStream.read_append _ m 4 (putU32_length x), getU32_putU32]

theorem parses_u64 (x : UInt64) : Parses (u64 : Reader ε UInt64) (putU64 x) x := by
  intro m
  rw [u64_run, IStream.read_append _ m 8 (putU64_length x), getU64_putU64]

theorem parses_string (tooLong : ε) (str : CString) : Parses (string tooLong str.1.length) str.1 str := by
  intro m
  simp [string, str.2, IStream.read_append]

/-- A string behind its length, as the writers put it. -/
def putSized (str : CString) : Bytes := putU64 (UInt64.ofNat str.1.length) ++ str.1

theorem size_toNat (str : CString) : (UInt64.ofNat str.1.length).toNat = str.1.length := by
  have h : str.1.length ≤ 2 ^ 63 - 2 := str.2
  exact UInt64.toNat_ofNat_of_lt' (show str.1.length < 2 ^ 64 by omega)

theorem parses_sized (tooLong : ε) (str : CString) : Parses (sized tooLong) (putSized str) str := by
  apply (parses_u64 (UInt64.ofNat str.1.length)).bind
  rw [size_toNat]
  exact parses_string tooLong str

/-- On a cut-off copy of `f` and what follows it, `r` does not throw and leaves
a cut-off copy of what follows. -/
def Tears (r : Reader ε α) (f : Bytes) : Prop :=
  ∀ (s : IStream) (m : Bytes), s.Torn (f ++ m) → ∃ a s', r s = .ok (a, s') ∧ s'.Torn m

theorem tears_pure (a : α) : Tears (pure a : Reader ε α) [] := fun s _ h => ⟨a, s, rfl, h⟩

theorem Tears.bind {r : Reader ε α} {k : α → Reader ε β} {f f' : Bytes} (h : Tears r f) (h' : ∀ a, Tears (k a) f') :
    Tears (r >>= k) (f ++ f') := by
  intro s m hs
  rw [List.append_assoc] at hs
  obtain ⟨a, s1, h1, ht⟩ := h s (f' ++ m) hs
  obtain ⟨b, s2, h2, ht2⟩ := h' a s1 m ht
  refine ⟨b, s2, ?_, ht2⟩
  simp only [Bind.bind, StateT.bind, Except.bind, h1]
  exact h2

theorem tears_u32 (x : UInt32) : Tears (u32 : Reader ε UInt32) (putU32 x) :=
  fun _ _ hs => ⟨_, _, rfl, (hs.read (putU32_length x)).2.1⟩

theorem tears_u64 (x : UInt64) : Tears (u64 : Reader ε UInt64) (putU64 x) :=
  fun _ _ hs => ⟨_, _, rfl, (hs.read (putU64_length x)).2.1⟩

/-- A cut-off length is no larger than the length, so it never throws, and the
string is read at its own length unless the stream has run out. -/
theorem tears_sized (tooLong : ε) (str : CString) : Tears (sized tooLong) (putSized str) := by
  intro s m hs
  rw [putSized, List.append_assoc] at hs
  obtain ⟨hpre, ht, hall⟩ := hs.read (putU64_length _)
  have hle : (getU64 (s.read 8).1).toNat ≤ str.1.length := by
    have h1 := leNat_mono hpre
    rw [leNat_putU64, size_toNat] at h1
    have hlen : str.1.length ≤ 2 ^ 63 - 2 := str.2
    rw [getU64, UInt64.toNat_ofNat_of_lt' (show leNat (s.read 8).1 < 2 ^ 64 by omega)]
    exact h1
  have hmax := str.2
  have hrun : sized tooLong s = string tooLong (getU64 (s.read 8).1).toNat (s.read 8).2 := rfl
  rw [hrun, string, dif_pos (by omega)]
  refine ⟨_, _, rfl, ?_⟩
  cases he : (s.read 8).2.eof with
  | true => exact .inl (by rw [IStream.read_eof he]; exact he)
  | false =>
    rw [hall he, getU64_putU64, size_toNat]
    exact (ht.read rfl).2.1

/-! ## What a reader takes -/

/-- Every result of `r` comes from the bytes `R` gives for a value: from all of
them, or from a first part, and then the stream ran out. -/
structure Takes (r : Reader ε α) (R : α → Bytes → Prop) : Prop where
  value : ∃ a f, R a f
  spent : ∀ s a s', s.eof = true → r s = .ok (a, s') → s'.eof = true
  takes : ∀ rest a s, r ⟨rest, false⟩ = .ok (a, s) →
    s.eof = false ∧ (∃ f, R a f ∧ rest = f ++ s.rest) ∨
    s.eof = true ∧ ∃ b f, R b f ∧ rest <+: f ∧ rest.length < f.length

theorem takes_pure (a : α) : Takes (pure a : Reader ε α) fun b f => b = a ∧ f = [] where
  value := ⟨a, [], rfl, rfl⟩
  spent := by
    intro s b s' he h
    cases h
    exact he
  takes := by
    intro rest b s h
    cases h
    exact .inl ⟨rfl, [], ⟨rfl, rfl⟩, rfl⟩

theorem Takes.bind {r : Reader ε α} {k : α → Reader ε β} {R : α → Bytes → Prop} {S : α → β → Bytes → Prop} (h : Takes r R)
    (h' : ∀ a, Takes (k a) (S a)) : Takes (r >>= k) fun b f => ∃ a f₁ f₂, R a f₁ ∧ S a b f₂ ∧ f = f₁ ++ f₂ where
  value := by
    obtain ⟨a, f, hf⟩ := h.value
    obtain ⟨b, g, hg⟩ := (h' a).value
    exact ⟨b, f ++ g, a, f, g, hf, hg, rfl⟩
  spent := by
    intro s b s' he hb
    obtain ⟨a, s1, h1, h2⟩ := bind_ok hb
    exact (h' a).spent _ _ _ (h.spent _ _ _ he h1) h2
  takes := by
    intro rest b s hb
    obtain ⟨a, ⟨rest1, eof1⟩, h1, h2⟩ := bind_ok hb
    rcases h.takes _ _ _ h1 with ⟨he, f, hf, rfl⟩ | ⟨he, a', f, hf, hpre, hlt⟩
    · cases he
      rcases (h' a).takes _ _ _ h2 with ⟨he', g, hg, hrest⟩ | ⟨he', b', g, hg, ⟨u, hu⟩, hlt⟩
      · refine .inl ⟨he', f ++ g, ⟨a, f, g, hf, hg, rfl⟩, ?_⟩
        dsimp only at hrest ⊢
        rw [hrest, List.append_assoc]
      · refine .inr ⟨he', b', f ++ g, ⟨a, f, g, hf, hg, rfl⟩, ⟨u, ?_⟩, ?_⟩
        · dsimp only at hu ⊢
          rw [List.append_assoc, hu]
        · simp only [List.length_append] at hlt ⊢
          omega
    · -- The stream ran out before `k`, so the rest is any bytes that `k` could have taken.
      obtain ⟨b', g, hg⟩ := (h' a').value
      refine .inr ⟨(h' a).spent _ _ _ he h2, b', f ++ g, ⟨a', f, g, hf, hg, rfl⟩, hpre.trans ⟨g, rfl⟩, ?_⟩
      rw [List.length_append]
      omega

theorem Takes.mono {r : Reader ε α} {R R' : α → Bytes → Prop} (h : Takes r R) (hR : ∀ a f, R a f → R' a f) : Takes r R' where
  value := by
    obtain ⟨a, f, hf⟩ := h.value
    exact ⟨a, f, hR a f hf⟩
  spent := h.spent
  takes := by
    intro rest a s hr
    rcases h.takes rest a s hr with ⟨he, f, hf, hrest⟩ | ⟨he, b, f, hf, hrest⟩
    · exact .inl ⟨he, f, hR a f hf, hrest⟩
    · exact .inr ⟨he, b, f, hR b f hf, hrest⟩

theorem takes_bytes (n : Nat) : Takes (bytes n : Reader ε Bytes) fun b f => f = b ∧ b.length = n where
  value := ⟨List.replicate n 0, _, rfl, List.length_replicate⟩
  spent := by
    intro s b s' he h
    rw [bytes, IStream.read_eof he] at h
    cases h
    exact he
  takes := by
    intro rest b s h
    by_cases hlt : rest.length < n
    · simp only [bytes, IStream.read, hlt, if_true, Bool.false_eq_true, if_false] at h
      cases h
      refine .inr ⟨rfl, rest ++ List.replicate (n - rest.length) 0, _, ⟨rfl, ?_⟩, ⟨_, rfl⟩, ?_⟩ <;>
        · rw [List.length_append, List.length_replicate]
          omega
    · simp only [bytes, IStream.read, hlt, Bool.false_eq_true, if_false] at h
      cases h
      refine .inl ⟨rfl, rest.take n, ⟨rfl, ?_⟩, (List.take_append_drop n rest).symm⟩
      rw [List.length_take]
      omega

theorem takes_u32 : Takes (u32 : Reader ε UInt32) fun x f => f = putU32 x := by
  refine ((takes_bytes 4).bind fun b => takes_pure (getU32 b)).mono ?_
  rintro x f ⟨b, f₁, f₂, ⟨rfl, hlen⟩, ⟨rfl, rfl⟩, rfl⟩
  rw [List.append_nil, putU32_getU32 hlen]

theorem takes_u64 : Takes (u64 : Reader ε UInt64) fun x f => f = putU64 x := by
  refine ((takes_bytes 8).bind fun b => takes_pure (getU64 b)).mono ?_
  rintro x f ⟨b, f₁, f₂, ⟨rfl, hlen⟩, ⟨rfl, rfl⟩, rfl⟩
  rw [List.append_nil, putU64_getU64 hlen]

theorem putSized_of_length {str : CString} {n : UInt64} (h : str.1.length = n.toNat) : putSized str = putU64 n ++ str.1 := by
  rw [putSized, h, UInt64.ofNat_toNat]

/-- A length of which a byte is missing, with zeros in its place, is small. -/
theorem getU64_cut_le {rest : Bytes} (h : rest.length < 8) :
    (getU64 (rest ++ List.replicate (8 - rest.length) 0)).toNat ≤ maxSize := by
  have hbound : leNat rest < 256 ^ 7 :=
    Nat.lt_of_lt_of_le (leNat_lt rest) (Nat.pow_le_pow_right (by decide) (by omega))
  rw [getU64, leNat_zeros, UInt64.toNat_ofNat_of_lt' (Nat.lt_trans hbound (by decide))]
  exact Nat.le_of_lt (Nat.lt_trans hbound (by decide))

/-- A length that is cut off is a small one, so only a whole length can be too large. -/
theorem takes_sized (tooLong : ε) : Takes (sized tooLong) fun str f => f = putSized str where
  value := ⟨⟨[], Nat.zero_le _⟩, _, rfl⟩
  spent := by
    intro s str s' he h
    obtain ⟨n, s1, h1, h2⟩ := bind_ok h
    have he1 := takes_u64.spent s n s1 he h1
    unfold string at h2
    split at h2
    · cases h2
      rw [IStream.read_eof he1]
      exact he1
    · cases h2
  takes := by
    intro rest str s h
    obtain ⟨n, ⟨rest1, eof1⟩, h1, h2⟩ := bind_ok h
    unfold string at h2
    split at h2
    · rename_i hn
      rcases takes_u64.takes _ _ _ h1 with ⟨he, f, rfl, rfl⟩ | ⟨he, x, f, rfl, hpre, hlt⟩
      · -- The length is there. The string is there or ends early.
        cases he
        by_cases hlt : rest1.length < n.toNat
        · simp only [IStream.read, hlt, if_true, Bool.false_eq_true, if_false] at h2
          cases h2
          have hlen : (rest1 ++ List.replicate (n.toNat - rest1.length) 0).length = n.toNat := by
            rw [List.length_append, List.length_replicate]
            omega
          refine .inr ⟨rfl, ⟨rest1 ++ List.replicate (n.toNat - rest1.length) 0, by omega⟩, _, rfl, ?_, ?_⟩
          · rw [putSized_of_length hlen, ← List.append_assoc]
            exact ⟨_, rfl⟩
          · rw [putSized_of_length hlen, List.length_append, List.length_append, hlen]
            exact Nat.add_lt_add_left hlt _
        · simp only [IStream.read, hlt, Bool.false_eq_true, if_false] at h2
          cases h2
          have hlen : (rest1.take n.toNat).length = n.toNat := by
            rw [List.length_take]
            omega
          refine .inl ⟨rfl, _, rfl, ?_⟩
          rw [putSized_of_length (n := n) (by simp)]
          simp only [hlen, Nat.sub_self, List.replicate_zero, List.append_nil]
          rw [List.append_assoc, List.take_append_drop]
      · -- The length is cut off: with zeros behind it, it is small.
        dsimp only at he
        subst he
        cases h2
        rw [putU64_length] at hlt
        have hlen : (rest ++ List.replicate (8 - rest.length) 0).length = 8 := by
          rw [List.length_append, List.length_replicate]
          omega
        refine .inr ⟨rfl, ⟨List.replicate (getU64 (rest ++ List.replicate (8 - rest.length) 0)).toNat 0, ?_⟩, _, rfl, ?_, ?_⟩
        · rw [List.length_replicate]
          exact getU64_cut_le hlt
        · rw [putSized_of_length List.length_replicate, putU64_getU64 hlen, List.append_assoc]
          exact ⟨_, rfl⟩
        · rw [putSized, List.length_append, putU64_length]
          omega
    · cases h2

/-! ## What a reader throws -/

/-- `r` throws nothing but `e`. -/
def Throws (r : Reader ε α) (e : ε) : Prop := ∀ s e', r s = .error e' → e' = e

theorem throws_pure (a : α) (e : ε) : Throws (pure a) e := by
  intro s e' h
  cases h

theorem throws_u32 (e : ε) : Throws u32 e := by
  intro s e' h
  cases h

theorem throws_u64 (e : ε) : Throws u64 e := by
  intro s e' h
  cases h

theorem Throws.bind {r : Reader ε α} {k : α → Reader ε β} {e : ε} (h : Throws r e) (h' : ∀ a, Throws (k a) e) :
    Throws (r >>= k) e := by
  intro s e' he
  simp only [Bind.bind, StateT.bind, Except.bind] at he
  split at he
  · rename_i hr
    cases he
    exact h s e' hr
  · exact h' _ _ _ he

theorem throws_sized (e : ε) : Throws (sized e) e := by
  refine (throws_u64 e).bind fun n => ?_
  intro s e' h
  unfold string at h
  split at h
  · cases h
  · cases h
    rfl

end Reader

end Wire
