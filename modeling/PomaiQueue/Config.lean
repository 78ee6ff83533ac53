import PomaiQueue.Lib.Text
import PomaiQueue.Model
/-!
# The server's configuration

`src/server/config.cc`: a text of `key=value` lines becomes a `ServerConfig`. Which texts are
accepted is `WellFormed` (`loadServerConfig_accepts`). The number of a limit or a duration goes
through `std::stoull`, a multiplication of `uint64_t` and a narrowing, so an accepted text
means what it says only where every number in it fits (`means_what_it_says_iff`).
-/

namespace PomaiQueue.Server

open Wire Posix Storage Engine Text

/-! ## The loader -/

/-- `util::Status` with another code than Ok. A message can hold any bytes of the file. -/
structure Status where
  code : StatusCode
  message : Bytes

/-- `api::EngineOptions` with the fields that are only configured here. -/
structure ApiOptions extends EngineOptions where
  shard_count : UInt32 := 1
  retention : Int64 := 24 * 60 * 60 * 1000

structure ServerConfig where
  engine : ApiOptions := {}
  bootstrap_queues : List Bytes := []
  shutdown_grace : Int64 := 5000

def trim (value : Bytes) : Bytes := (value.dropWhile isspace).rdropWhile isspace

def invalidArgument {α : Type} (message : Bytes) (line_no : UInt64) : Except Status α :=
  .error ⟨.kInvalidArgument, message ++ ascii " at line " ++ decimal line_no⟩

def parseUint (value key : Bytes) (line_no : UInt64) : Except Status UInt64 :=
  match stoull value with
  | none => invalidArgument (ascii "invalid integer for key '" ++ key ++ ascii "'") line_no
  | some (parsed, idx) =>
    if idx ≠ value.length then invalidArgument (ascii "invalid integer for key '" ++ key ++ ascii "'") line_no
    else .ok parsed

/-- The multiplier of a duration, and the text before its unit. -/
def splitUnit (value : Bytes) : UInt64 × Bytes :=
  if 2 ≤ value.length ∧ value.drop (value.length - 2) = ascii "ms" then (1, value.take (value.length - 2))
  else if value.getLast? = some 's'.toUInt8 then (1000, value.take (value.length - 1))
  else if value.getLast? = some 'm'.toUInt8 then (60 * 1000, value.take (value.length - 1))
  else if value.getLast? = some 'h'.toUInt8 then (60 * 60 * 1000, value.take (value.length - 1))
  else (1, value)

def parseDurationMs (value key : Bytes) (line_no : UInt64) : Except Status Int64 :=
  if value = [] then invalidArgument (ascii "empty duration for key '" ++ key ++ ascii "'") line_no
  else
    match splitUnit value with
    | (multiplier, numeric) =>
      match parseUint (trim numeric) key line_no with
      | .error status => .error status
      | .ok count => .ok (count * multiplier).toInt64

def splitComma (value : Bytes) : List Bytes := ((getlines ','.toUInt8 value).map trim).filter (· ≠ [])

def parseFsyncPolicy (value : Bytes) (line_no : UInt64) : Except Status FsyncPolicy :=
  if value = ascii "always" then .ok .kAlways
  else if value = ascii "interval" then .ok .kInterval
  else if value = ascii "never" then .ok .kNever
  else invalidArgument (ascii "invalid fsync_policy") line_no

/-- The assignment of one line, by its key. -/
def assign (line_no : UInt64) (key value : Bytes) (cfg : ServerConfig) : Except Status ServerConfig :=
  if key = ascii "data_dir" then .ok { cfg with engine.data_dir := value }
  else if key = ascii "shard_count" then
    (parseUint value key line_no).map fun v => { cfg with engine.shard_count := v.toUInt32 }
  else if key = ascii "max_inflight" then
    (parseUint value key line_no).map fun v => { cfg with engine.max_inflight := v.toUInt32 }
  else if key = ascii "max_queue_depth" then
    (parseUint value key line_no).map fun v => { cfg with engine.max_queue_depth := v.toUInt32 }
  else if key = ascii "max_retry_count" then
    (parseUint value key line_no).map fun v => { cfg with engine.max_retry_count := v.toUInt32 }
  else if key = ascii "max_segment_size_bytes" then
    (parseUint value key line_no).map fun v => { cfg with engine.max_segment_size_bytes := v }
  else if key = ascii "visibility_timeout" then
    (parseDurationMs value key line_no).map fun v => { cfg with engine.visibility_timeout := v }
  else if key = ascii "retry_backoff" then
    (parseDurationMs value key line_no).map fun v => { cfg with engine.retry_backoff := v }
  else if key = ascii "scheduler_tick" then
    (parseDurationMs value key line_no).map fun v => { cfg with engine.scheduler_tick := v }
  else if key = ascii "retention" then
    (parseDurationMs value key line_no).map fun v => { cfg with engine.retention := v }
  else if key = ascii "shutdown_grace" then
    (parseDurationMs value key line_no).map fun v => { cfg with shutdown_grace := v }
  else if key = ascii "fsync_policy" then
    (parseFsyncPolicy value line_no).map fun p => { cfg with engine.fsync_policy := p }
  else if key = ascii "bootstrap_queues" then .ok { cfg with bootstrap_queues := splitComma value }
  else invalidArgument (ascii "unknown config key '" ++ key ++ ascii "'") line_no

/-- A line without its comment. -/
def content (line : Bytes) : Bytes := trim (line.takeWhile (· ≠ '#'.toUInt8))

def loadLine (line_no : UInt64) (line : Bytes) (cfg : ServerConfig) : Except Status ServerConfig :=
  let line := content line
  if line = [] then .ok cfg
  else
    match line.idxOf? '='.toUInt8 with
    | none => invalidArgument (ascii "expected key=value") line_no
    | some eq =>
      let key := trim (line.take eq)
      let value := trim (line.drop (eq + 1))
      if key = [] then invalidArgument (ascii "empty key") line_no else assign line_no key value cfg

/-- The loop over the lines; `line_no` of them are behind it. -/
def loadLines (line_no : UInt64) : List Bytes → ServerConfig → Except Status ServerConfig
  | [], cfg => .ok cfg
  | line :: lines, cfg =>
    match loadLine (line_no + 1) line cfg with
    | .error status => .error status
    | .ok cfg => loadLines (line_no + 1) lines cfg

def initialConfig : ServerConfig := { engine.data_dir := ascii "/tmp/pomaiqueue" }

/-- `file` is what the file at `path` holds, if it can be opened. -/
def loadServerConfig (path : Path) (file : Option Bytes) : Except Status ServerConfig :=
  match file with
  | none => .error ⟨.kNotFound, ascii "cannot open config: " ++ path⟩
  | some text =>
    match loadLines 0 (getlines '\n'.toUInt8 text) initialConfig with
    | .error status => .error status
    | .ok cfg =>
      if cfg.engine.data_dir = [] then .error ⟨.kInvalidArgument, ascii "data_dir must not be empty"⟩ else .ok cfg

/-! ## What a text says -/

/-- The types of the fields that hold a number. -/
inductive Kind
  | uint32
  | uint64
  | milliseconds

def Kind.limit : Kind → Int
  | .uint32 => 2 ^ 32
  | .uint64 => 2 ^ 64
  | .milliseconds => 2 ^ 63

def Kind.Fits (kind : Kind) (v : Int) : Prop := 0 ≤ v ∧ v < kind.limit

def durationUnits : List (Bytes × Int) :=
  [([], 1), (ascii "ms", 1), (ascii "s", 1000), (ascii "m", 60000), (ascii "h", 3600000)]

/-- The number that stands in a text, and what it counts. -/
def Kind.Reads : Kind → Bytes → Int → Int → Prop
  | .milliseconds, value, n, unit =>
    ∃ text suffix, (suffix, unit) ∈ durationUnits ∧ value = text ++ suffix ∧ numeral (trim text) = some n
  | _, value, n, unit => numeral value = some n ∧ unit = 1

/-- The mathematical value of a text. -/
def Kind.Means (kind : Kind) (value : Bytes) (v : Int) : Prop := ∃ n unit, kind.Reads value n unit ∧ v = n * unit

/-- The integer and duration keys. -/
inductive NumKey
  | shard_count
  | max_inflight
  | max_queue_depth
  | max_retry_count
  | max_segment_size_bytes
  | visibility_timeout
  | retry_backoff
  | scheduler_tick
  | retention
  | shutdown_grace
  deriving DecidableEq

namespace NumKey

def name : NumKey → Bytes
  | shard_count => ascii "shard_count"
  | max_inflight => ascii "max_inflight"
  | max_queue_depth => ascii "max_queue_depth"
  | max_retry_count => ascii "max_retry_count"
  | max_segment_size_bytes => ascii "max_segment_size_bytes"
  | visibility_timeout => ascii "visibility_timeout"
  | retry_backoff => ascii "retry_backoff"
  | scheduler_tick => ascii "scheduler_tick"
  | retention => ascii "retention"
  | shutdown_grace => ascii "shutdown_grace"

def kind : NumKey → Kind
  | shard_count | max_inflight | max_queue_depth | max_retry_count => .uint32
  | max_segment_size_bytes => .uint64
  | visibility_timeout | retry_backoff | scheduler_tick | retention | shutdown_grace => .milliseconds

/-- The field of a key, as an integer. -/
def stored (cfg : ServerConfig) : NumKey → Int
  | shard_count => cfg.engine.shard_count.toNat
  | max_inflight => cfg.engine.max_inflight.toNat
  | max_queue_depth => cfg.engine.max_queue_depth.toNat
  | max_retry_count => cfg.engine.max_retry_count.toNat
  | max_segment_size_bytes => cfg.engine.max_segment_size_bytes.toNat
  | visibility_timeout => cfg.engine.visibility_timeout.toInt
  | retry_backoff => cfg.engine.retry_backoff.toInt
  | scheduler_tick => cfg.engine.scheduler_tick.toInt
  | retention => cfg.engine.retention.toInt
  | shutdown_grace => cfg.shutdown_grace.toInt

theorem name_ne (k : NumKey) :
    k.name ≠ ascii "data_dir" ∧ k.name ≠ ascii "bootstrap_queues" ∧ k.name ≠ ascii "fsync_policy" := by
  cases k <;> decide

end NumKey

/-- The key and the value of a line that has both. -/
def assignment (line : Bytes) : Option (Bytes × Bytes) :=
  ((content line).idxOf? '='.toUInt8).map fun eq => (trim ((content line).take eq), trim ((content line).drop (eq + 1)))

def assignments (text : Bytes) : List (Bytes × Bytes) := (getlines '\n'.toUInt8 text).filterMap assignment

def lastValue (key : Bytes) (as : List (Bytes × Bytes)) : Option Bytes := ((as.filter (·.1 = key)).getLast?).map Prod.snd

/-- The values a key takes. A number has to be below `2 ^ 64`, whatever its sign, its unit
and its field. -/
def Takes (key value : Bytes) : Prop :=
  key = ascii "data_dir" ∨ key = ascii "bootstrap_queues" ∨
  key = ascii "fsync_policy" ∧ value ∈ [ascii "always", ascii "interval", ascii "never"] ∨
  ∃ k : NumKey, key = k.name ∧ ∃ n unit, k.kind.Reads value n unit ∧ n.natAbs < 2 ^ 64

/-- A line is blank or an assignment that its key takes. -/
def LineOk (line : Bytes) : Prop :=
  content line = [] ∨ ∃ key value, assignment line = some (key, value) ∧ Takes key value

def WellFormed (text : Bytes) : Prop :=
  (∀ line ∈ getlines '\n'.toUInt8 text, LineOk line) ∧ lastValue (ascii "data_dir") (assignments text) ≠ some []

/-! ## Reading a number -/

theorem trim_dropWhile (text : Bytes) : (trim text).dropWhile isspace = trim text := by
  rw [List.dropWhile_eq_self_iff]
  intro hlen
  have hne : trim text ≠ [] := List.ne_nil_of_length_pos hlen
  have hpre : trim text <+: text.dropWhile isspace := List.rdropWhile_prefix isspace _
  have hdrop : text.dropWhile isspace ≠ [] := fun h => hne (List.prefix_nil.1 (h ▸ hpre))
  rw [← List.head_eq_getElem hne, hpre.head hne, List.head_dropWhile_not isspace hdrop]
  exact Bool.false_ne_true

/-- The last byte of a text stays if it is not space. -/
theorem trim_concat {c : UInt8} (hc : isspace c = false) (text : Bytes) : ∃ s, trim (text ++ [c]) = s ++ [c] := by
  have hdrop : ∃ s, (text ++ [c]).dropWhile isspace = s ++ [c] := by
    rw [List.dropWhile_append]
    split
    · exact ⟨[], by rw [List.dropWhile_cons_of_neg (by rw [hc]; exact Bool.false_ne_true), List.nil_append]⟩
    · exact ⟨_, rfl⟩
  obtain ⟨s, hs⟩ := hdrop
  exact ⟨s, by rw [trim, hs, List.rdropWhile_concat_neg isspace s c (by rw [hc]; exact Bool.false_ne_true)]⟩

/-- So such a byte has to be a digit. -/
theorem numeral_trim_concat {c : UInt8} (hspace : isspace c = false) (hdigit : isdigit c = false) (hminus : c ≠ 0x2D)
    (hplus : c ≠ 0x2B) (text : Bytes) : numeral (trim (text ++ [c])) = none := by
  obtain ⟨s, hs⟩ := trim_concat hspace text
  rw [hs]
  exact numeral_concat hdigit hminus hplus s

theorem parseUint_eq_ok_iff {value : Bytes} (htrim : value.dropWhile isspace = value) (key : Bytes) (line_no : UInt64) (x : UInt64) :
    parseUint value key line_no = .ok x ↔ ∃ n, numeral value = some n ∧ n.natAbs < 2 ^ 64 ∧ x = UInt64.ofInt n := by
  rw [← stoull_whole htrim, parseUint]
  cases hread : stoull value with
  | none => simp [invalidArgument]
  | some r =>
    obtain ⟨parsed, idx⟩ := r
    by_cases hidx : idx = value.length
    · simp [hidx]
    · simp [hidx, invalidArgument]

/-! ## Units -/

theorem endsMs {value : Bytes} (h : 2 ≤ value.length ∧ value.drop (value.length - 2) = ascii "ms") :
    ∃ text, value = text ++ ['m'.toUInt8] ++ ['s'.toUInt8] := by
  refine ⟨value.take (value.length - 2), ?_⟩
  rw [List.append_assoc, show ['m'.toUInt8] ++ ['s'.toUInt8] = ascii "ms" from rfl, ← h.2, List.take_append_drop]

theorem splitUnit_ms (text : Bytes) : splitUnit (text ++ ascii "ms") = (1, text) := by
  have htwo : (ascii "ms").length = 2 := rfl
  rw [splitUnit, List.length_append, htwo, Nat.add_sub_cancel, List.drop_left, List.take_left, if_pos ⟨Nat.le_add_left _ _, rfl⟩]

/-- Of the units, only `s` can be the end of another one. -/
theorem splitUnit_concat {text : Bytes} {c : UInt8} (hms : c = 's'.toUInt8 → ∀ s, text ≠ s ++ ['m'.toUInt8]) :
    splitUnit (text ++ [c]) =
      if c = 's'.toUInt8 then (1000, text)
      else if c = 'm'.toUInt8 then (60000, text)
      else if c = 'h'.toUInt8 then (3600000, text) else (1, text ++ [c]) := by
  rw [splitUnit, if_neg]
  · simp
  · intro h
    obtain ⟨s, hs⟩ := endsMs h
    obtain ⟨htext, hc⟩ := List.append_inj' hs rfl
    exact hms (List.singleton_inj.1 hc) s htext

/-- A text before a unit that is a number shows which unit it is. -/
theorem splitUnit_of_reads {value : Bytes} {n unit : Int} (h : Kind.milliseconds.Reads value n unit) :
    ((splitUnit value).1.toNat : Int) = unit ∧ numeral (trim (splitUnit value).2) = some n := by
  obtain ⟨text, suffix, hunit, rfl, hn⟩ := h
  have hlast : ∀ s c, isspace c = false → isdigit c = false → c ≠ 0x2D → c ≠ 0x2B → text ≠ s ++ [c] := by
    rintro s c hspace hdigit hminus hplus rfl
    rw [numeral_trim_concat hspace hdigit hminus hplus] at hn
    cases hn
  have hm := fun s => hlast s 'm'.toUInt8 (by decide) (by decide) (by decide) (by decide)
  simp only [durationUnits, List.mem_cons, List.not_mem_nil, or_false, Prod.mk.injEq] at hunit
  rcases hunit with ⟨rfl, rfl⟩ | ⟨rfl, rfl⟩ | ⟨rfl, rfl⟩ | ⟨rfl, rfl⟩ | ⟨rfl, rfl⟩
  · rw [List.append_nil]
    rcases List.eq_nil_or_concat' text with rfl | ⟨s, c, rfl⟩
    · cases hn
    · have hs : c ≠ 's'.toUInt8 := fun h => hlast s 's'.toUInt8 (by decide) (by decide) (by decide) (by decide) (by rw [h])
      have hm : c ≠ 'm'.toUInt8 := fun h => hm s (by rw [h])
      have hh : c ≠ 'h'.toUInt8 := fun h => hlast s 'h'.toUInt8 (by decide) (by decide) (by decide) (by decide) (by rw [h])
      rw [splitUnit_concat fun h => absurd h hs, if_neg hs, if_neg hm, if_neg hh]
      exact ⟨rfl, hn⟩
  · rw [splitUnit_ms]
    exact ⟨rfl, hn⟩
  · rw [show ascii "s" = ['s'.toUInt8] from rfl, splitUnit_concat fun _ => hm, if_pos rfl]
    exact ⟨rfl, hn⟩
  · rw [show ascii "m" = ['m'.toUInt8] from rfl, splitUnit_concat fun h => absurd h (by decide)]
    exact ⟨rfl, hn⟩
  · rw [show ascii "h" = ['h'.toUInt8] from rfl, splitUnit_concat fun h => absurd h (by decide)]
    exact ⟨rfl, hn⟩

theorem eq_take_concat {value : Bytes} {c : UInt8} (h : value.getLast? = some c) :
    value = value.take (value.length - 1) ++ [c] := by
  rw [← List.dropLast_eq_take, List.dropLast_append_getLast? c h]

theorem splitUnit_unit (value : Bytes) :
    ∃ suffix, (suffix, ((splitUnit value).1.toNat : Int)) ∈ durationUnits ∧ value = (splitUnit value).2 ++ suffix := by
  rw [splitUnit]
  split
  · next h => exact ⟨ascii "ms", (by decide : (ascii "ms", (1 : Int)) ∈ durationUnits), by rw [← h.2, List.take_append_drop]⟩
  · split
    · next h => exact ⟨ascii "s", (by decide : (ascii "s", (1000 : Int)) ∈ durationUnits), eq_take_concat h⟩
    · split
      · next h => exact ⟨ascii "m", (by decide : (ascii "m", (60000 : Int)) ∈ durationUnits), eq_take_concat h⟩
      · split
        · next h => exact ⟨ascii "h", (by decide : (ascii "h", (3600000 : Int)) ∈ durationUnits), eq_take_concat h⟩
        · exact ⟨[], (by decide : ([], (1 : Int)) ∈ durationUnits), (List.append_nil value).symm⟩

theorem reads_milliseconds_iff {value : Bytes} {n unit : Int} :
    Kind.milliseconds.Reads value n unit ↔
      unit = (splitUnit value).1.toNat ∧ numeral (trim (splitUnit value).2) = some n := by
  constructor
  · intro h
    obtain ⟨hunit, hn⟩ := splitUnit_of_reads h
    exact ⟨hunit.symm, hn⟩
  · rintro ⟨rfl, hn⟩
    obtain ⟨suffix, hmem, hvalue⟩ := splitUnit_unit value
    exact ⟨_, suffix, hmem, hvalue, hn⟩

theorem parseDurationMs_eq_ok_iff (value key : Bytes) (line_no : UInt64) (d : Int64) :
    parseDurationMs value key line_no = .ok d ↔
      ∃ n unit, Kind.milliseconds.Reads value n unit ∧ n.natAbs < 2 ^ 64 ∧ d = (UInt64.ofInt (n * unit)).toInt64 := by
  simp only [reads_milliseconds_iff]
  rw [parseDurationMs]
  by_cases hempty : value = []
  · subst hempty
    constructor
    · rintro ⟨⟩
    · rintro ⟨n, unit, ⟨-, hn⟩, -⟩
      cases hn
  · rw [if_neg hempty]
    dsimp only
    cases hcount : parseUint (trim (splitUnit value).2) key line_no with
    | error status =>
      constructor
      · rintro ⟨⟩
      · rintro ⟨n, unit, ⟨-, hn⟩, hlt, -⟩
        rw [(parseUint_eq_ok_iff (trim_dropWhile _) key line_no _).2 ⟨n, hn, hlt, rfl⟩] at hcount
        cases hcount
    | ok count =>
      obtain ⟨n, hn, hlt, rfl⟩ := (parseUint_eq_ok_iff (trim_dropWhile _) key line_no _).1 hcount
      have hmul : UInt64.ofInt n * (splitUnit value).1 = UInt64.ofInt (n * (splitUnit value).1.toNat) := by
        rw [UInt64.ofInt_mul, ofInt_natCast, UInt64.ofNat_toNat]
      simp only [hmul, Except.ok.injEq]
      constructor
      · rintro rfl
        exact ⟨n, _, ⟨rfl, hn⟩, hlt, rfl⟩
      · rintro ⟨m, unit, ⟨rfl, hm⟩, -, rfl⟩
        rw [Option.some.inj (hn.symm.trans hm)]

/-- A text says at most one number. -/
theorem Kind.Means.unique {kind : Kind} {value : Bytes} {v w : Int} (hv : kind.Means value v) (hw : kind.Means value w) : v = w := by
  obtain ⟨n, unit, hn, rfl⟩ := hv
  obtain ⟨m, unit', hm, rfl⟩ := hw
  cases kind with
  | milliseconds =>
    obtain ⟨hunit, hsome⟩ := reads_milliseconds_iff.1 hn
    obtain ⟨hunit', hsome'⟩ := reads_milliseconds_iff.1 hm
    rw [hunit, hunit', Option.some.inj (hsome.symm.trans hsome')]
  | uint32 | uint64 =>
    obtain ⟨hn, rfl⟩ := hn
    obtain ⟨hm, rfl⟩ := hm
    rw [Option.some.inj (hn.symm.trans hm)]

/-! ## One assignment -/

/-- What a key keeps of the 64 bits its number was read into. -/
def NumKey.put (x : UInt64) (cfg : ServerConfig) : NumKey → ServerConfig
  | shard_count => { cfg with engine.shard_count := x.toUInt32 }
  | max_inflight => { cfg with engine.max_inflight := x.toUInt32 }
  | max_queue_depth => { cfg with engine.max_queue_depth := x.toUInt32 }
  | max_retry_count => { cfg with engine.max_retry_count := x.toUInt32 }
  | max_segment_size_bytes => { cfg with engine.max_segment_size_bytes := x }
  | visibility_timeout => { cfg with engine.visibility_timeout := x.toInt64 }
  | retry_backoff => { cfg with engine.retry_backoff := x.toInt64 }
  | scheduler_tick => { cfg with engine.scheduler_tick := x.toInt64 }
  | retention => { cfg with engine.retention := x.toInt64 }
  | shutdown_grace => { cfg with shutdown_grace := x.toInt64 }

theorem map_eq_ok_iff {α β ε : Type} {f : α → β} {x : Except ε α} {y : β} : x.map f = .ok y ↔ ∃ a, x = .ok a ∧ y = f a := by
  cases x with
  | error e => simp [Except.map]
  | ok a => simp [Except.map, eq_comm]

section
variable {value : Bytes} (htrim : value.dropWhile isspace = value) {key : Bytes} {line_no : UInt64} {cfg cfg' : ServerConfig}

include htrim in
theorem map_parseUint_iff {f : UInt64 → ServerConfig} :
    (parseUint value key line_no).map f = .ok cfg' ↔
      ∃ n unit, Kind.uint64.Reads value n unit ∧ n.natAbs < 2 ^ 64 ∧ cfg' = f (UInt64.ofInt (n * unit)) := by
  simp only [map_eq_ok_iff, parseUint_eq_ok_iff htrim]
  constructor
  · rintro ⟨x, ⟨n, hn, hlt, rfl⟩, rfl⟩
    exact ⟨n, 1, ⟨hn, rfl⟩, hlt, by rw [mul_one]⟩
  · rintro ⟨n, unit, ⟨hn, rfl⟩, hlt, rfl⟩
    exact ⟨_, ⟨n, hn, hlt, rfl⟩, by rw [mul_one]⟩

theorem map_parseDurationMs_iff {f : Int64 → ServerConfig} :
    (parseDurationMs value key line_no).map f = .ok cfg' ↔
      ∃ n unit, Kind.milliseconds.Reads value n unit ∧ n.natAbs < 2 ^ 64 ∧ cfg' = f (UInt64.ofInt (n * unit)).toInt64 := by
  simp only [map_eq_ok_iff, parseDurationMs_eq_ok_iff]
  constructor
  · rintro ⟨x, ⟨n, unit, hn, hlt, rfl⟩, rfl⟩
    exact ⟨n, unit, hn, hlt, rfl⟩
  · rintro ⟨n, unit, hn, hlt, rfl⟩
    exact ⟨_, ⟨n, unit, hn, hlt, rfl⟩, rfl⟩

include htrim in
theorem assign_name_iff (k : NumKey) :
    assign line_no k.name value cfg = .ok cfg' ↔
      ∃ n unit, k.kind.Reads value n unit ∧ n.natAbs < 2 ^ 64 ∧ cfg' = k.put (UInt64.ofInt (n * unit)) cfg := by
  cases k with
  | shard_count | max_inflight | max_queue_depth | max_retry_count | max_segment_size_bytes => exact map_parseUint_iff htrim
  | visibility_timeout | retry_backoff | scheduler_tick | retention | shutdown_grace => exact map_parseDurationMs_iff

theorem assign_other (h : ∀ k : NumKey, key ≠ k.name) :
    assign line_no key value cfg =
      if key = ascii "data_dir" then .ok { cfg with engine.data_dir := value }
      else if key = ascii "fsync_policy" then
        (parseFsyncPolicy value line_no).map fun p => { cfg with engine.fsync_policy := p }
      else if key = ascii "bootstrap_queues" then .ok { cfg with bootstrap_queues := splitComma value }
      else invalidArgument (ascii "unknown config key '" ++ key ++ ascii "'") line_no := by
  rw [assign, if_neg (show key ≠ ascii "shard_count" from h .shard_count),
    if_neg (show key ≠ ascii "max_inflight" from h .max_inflight),
    if_neg (show key ≠ ascii "max_queue_depth" from h .max_queue_depth),
    if_neg (show key ≠ ascii "max_retry_count" from h .max_retry_count),
    if_neg (show key ≠ ascii "max_segment_size_bytes" from h .max_segment_size_bytes),
    if_neg (show key ≠ ascii "visibility_timeout" from h .visibility_timeout),
    if_neg (show key ≠ ascii "retry_backoff" from h .retry_backoff),
    if_neg (show key ≠ ascii "scheduler_tick" from h .scheduler_tick),
    if_neg (show key ≠ ascii "retention" from h .retention),
    if_neg (show key ≠ ascii "shutdown_grace" from h .shutdown_grace)]

theorem parseFsyncPolicy_iff :
    (∃ p, parseFsyncPolicy value line_no = .ok p) ↔ value ∈ [ascii "always", ascii "interval", ascii "never"] := by
  rw [parseFsyncPolicy]
  split
  · next h => simp [h]
  · next halways =>
    split
    · next h => simp [h]
    · next hinterval =>
      split
      · next h => simp [h]
      · next hnever => simp [halways, hinterval, hnever, invalidArgument]

include htrim in
theorem assign_accepts : (∃ cfg', assign line_no key value cfg = .ok cfg') ↔ Takes key value := by
  by_cases hkey : ∃ k : NumKey, key = k.name
  · obtain ⟨k, rfl⟩ := hkey
    constructor
    · rintro ⟨cfg', h⟩
      obtain ⟨n, unit, hn, hlt, -⟩ := (assign_name_iff htrim k).1 h
      exact .inr (.inr (.inr ⟨k, rfl, n, unit, hn, hlt⟩))
    · rintro (h | h | ⟨h, -⟩ | ⟨k', hname, n, unit, hn, hlt⟩)
      · exact absurd h k.name_ne.1
      · exact absurd h k.name_ne.2.1
      · exact absurd h k.name_ne.2.2
      · rw [hname]
        exact ⟨_, (assign_name_iff htrim k').2 ⟨n, unit, hn, hlt, rfl⟩⟩
  · have hother : ∀ k : NumKey, key ≠ k.name := fun k h => hkey ⟨k, h⟩
    constructor
    · rintro ⟨cfg', h⟩
      rw [assign_other hother] at h
      split at h
      · next hdir => exact .inl hdir
      · split at h
        · next hfsync =>
          obtain ⟨p, hp, -⟩ := map_eq_ok_iff.1 h
          exact .inr (.inr (.inl ⟨hfsync, parseFsyncPolicy_iff.1 ⟨p, hp⟩⟩))
        · split at h
          · next hqueues => exact .inr (.inl hqueues)
          · cases h
    · rintro (rfl | rfl | ⟨rfl, hvalue⟩ | ⟨k, hname, -⟩)
      · exact ⟨_, rfl⟩
      · exact ⟨_, rfl⟩
      · obtain ⟨p, hp⟩ := parseFsyncPolicy_iff.2 hvalue
        exact ⟨_, map_eq_ok_iff.2 ⟨p, hp, rfl⟩⟩
      · exact absurd hname (hother k)

/-- An assignment touches the field of its key and no other. -/
theorem stored_put_ne {k k' : NumKey} (h : k ≠ k') (x : UInt64) (cfg : ServerConfig) : k'.stored (k.put x cfg) = k'.stored cfg := by
  cases k <;> cases k' <;> first | rfl | exact absurd rfl h

theorem stored_put {k : NumKey} {v : Int} (hfit : k.kind.Fits v) (cfg : ServerConfig) :
    k.stored (k.put (UInt64.ofInt v) cfg) = v := by
  have hlt : v < 2 ^ 64 := by
    have hlimit : k.kind.limit ≤ 2 ^ 64 := by cases k <;> decide
    exact lt_of_lt_of_le hfit.2 hlimit
  obtain ⟨m, rfl⟩ := Int.eq_ofNat_of_zero_le hfit.1
  have hm : (UInt64.ofInt m).toNat = m := by
    rw [ofInt_natCast, UInt64.toNat_ofNat', Nat.mod_eq_of_lt (by exact_mod_cast hlt)]
  cases k with
  | shard_count | max_inflight | max_queue_depth | max_retry_count =>
    have hlimit : (m : Int) < 2 ^ 32 := hfit.2
    have hsmall : m < 2 ^ 32 := by exact_mod_cast hlimit
    simp only [NumKey.stored, NumKey.put, UInt64.toNat_toUInt32, hm, Nat.mod_eq_of_lt hsmall]
  | max_segment_size_bytes => simp only [NumKey.stored, NumKey.put, hm]
  | visibility_timeout | retry_backoff | scheduler_tick | retention | shutdown_grace =>
    have hlimit : (m : Int) < 2 ^ 63 := hfit.2
    have hint : (UInt64.ofInt m).toInt64.toInt = m := by
      rw [ofInt_natCast, UInt64.toInt64_ofNat', Int64.toInt_ofNat_of_lt (by exact_mod_cast hlimit)]
    simp only [NumKey.stored, NumKey.put, hint]

include htrim in
theorem assign_keeps (h : assign line_no key value cfg = .ok cfg') :
    cfg'.engine.data_dir = (if key = ascii "data_dir" then value else cfg.engine.data_dir) ∧
    ∀ k : NumKey, key ≠ k.name → k.stored cfg' = k.stored cfg := by
  by_cases hkey : ∃ k : NumKey, key = k.name
  · obtain ⟨k, rfl⟩ := hkey
    obtain ⟨n, unit, -, -, rfl⟩ := (assign_name_iff htrim k).1 h
    refine ⟨?_, fun k' hne => stored_put_ne (fun heq => hne (congrArg NumKey.name heq)) _ cfg⟩
    rw [if_neg k.name_ne.1]
    cases k <;> rfl
  · rw [assign_other fun k h => hkey ⟨k, h⟩] at h
    split at h
    · next hdir =>
      cases h
      exact ⟨(if_pos hdir).symm, fun k _ => by cases k <;> rfl⟩
    · next hdir =>
      rw [if_neg hdir]
      split at h
      · obtain ⟨p, -, rfl⟩ := map_eq_ok_iff.1 h
        exact ⟨rfl, fun k _ => by cases k <;> rfl⟩
      · split at h
        · cases h
          exact ⟨rfl, fun k _ => by cases k <;> rfl⟩
        · cases h

end

/-! ## Lines -/

theorem assignment_trimmed {line key value : Bytes} (h : assignment line = some (key, value)) :
    value.dropWhile isspace = value := by
  obtain ⟨eq, -, heq⟩ := Option.map_eq_some_iff.1 h
  cases heq
  exact trim_dropWhile _

theorem assignment_blank {line : Bytes} (h : content line = []) : assignment line = none := by
  rw [assignment, h]
  rfl

theorem loadLine_blank {line : Bytes} (h : content line = []) (line_no : UInt64) (cfg : ServerConfig) :
    loadLine line_no line cfg = .ok cfg := by
  simp only [loadLine, h, if_true]

theorem loadLine_iff {line : Bytes} (h : content line ≠ []) (line_no : UInt64) (cfg cfg' : ServerConfig) :
    loadLine line_no line cfg = .ok cfg' ↔
      ∃ key value, assignment line = some (key, value) ∧ assign line_no key value cfg = .ok cfg' := by
  simp only [loadLine, assignment, if_neg h]
  cases hfind : (content line).idxOf? '='.toUInt8 with
  | none => simp [invalidArgument]
  | some eq =>
    dsimp only
    constructor
    · intro hload
      split at hload
      · cases hload
      · exact ⟨_, _, rfl, hload⟩
    · rintro ⟨key, value, hsome, hassign⟩
      cases hsome
      split
      · next hkey =>
        rw [hkey] at hassign
        cases hassign
      · exact hassign

theorem loadLine_accepts (line_no : UInt64) (line : Bytes) (cfg : ServerConfig) :
    (∃ cfg', loadLine line_no line cfg = .ok cfg') ↔ LineOk line := by
  by_cases hblank : content line = []
  · exact ⟨fun _ => .inl hblank, fun _ => ⟨cfg, loadLine_blank hblank line_no cfg⟩⟩
  · simp only [loadLine_iff hblank]
    constructor
    · rintro ⟨cfg', key, value, hsome, hassign⟩
      exact .inr ⟨key, value, hsome, (assign_accepts (assignment_trimmed hsome)).1 ⟨cfg', hassign⟩⟩
    · rintro (h | ⟨key, value, hsome, htakes⟩)
      · exact absurd h hblank
      · obtain ⟨cfg', hassign⟩ := (assign_accepts (assignment_trimmed hsome)).2 htakes
        exact ⟨cfg', key, value, hsome, hassign⟩

/-- The loop stops at the first line that is not `LineOk`. -/
theorem loadLines_accepts (line_no : UInt64) (lines : List Bytes) (cfg : ServerConfig) :
    (∃ cfg', loadLines line_no lines cfg = .ok cfg') ↔ ∀ line ∈ lines, LineOk line := by
  induction lines generalizing line_no cfg with
  | nil => exact ⟨fun _ _ h => absurd h List.not_mem_nil, fun _ => ⟨cfg, rfl⟩⟩
  | cons line lines ih =>
    rw [List.forall_mem_cons, ← loadLine_accepts (line_no + 1) line cfg, loadLines]
    cases hline : loadLine (line_no + 1) line cfg with
    | error status => simp
    | ok cfg₁ => simp [ih]

/-- The assignments of a text, one after the other. -/
inductive Assigned : List (Bytes × Bytes) → ServerConfig → ServerConfig → Prop
  | nil (cfg : ServerConfig) : Assigned [] cfg cfg
  | cons {key value : Bytes} {as : List (Bytes × Bytes)} {cfg cfg₁ cfg' : ServerConfig} (htrim : value.dropWhile isspace = value)
      (line_no : UInt64) (h : assign line_no key value cfg = .ok cfg₁) (rest : Assigned as cfg₁ cfg') :
      Assigned ((key, value) :: as) cfg cfg'

theorem loadLines_assigned {line_no : UInt64} {lines : List Bytes} {cfg cfg' : ServerConfig}
    (h : loadLines line_no lines cfg = .ok cfg') : Assigned (lines.filterMap assignment) cfg cfg' := by
  induction lines generalizing line_no cfg with
  | nil =>
    cases h
    exact .nil _
  | cons line lines ih =>
    rw [loadLines] at h
    cases hline : loadLine (line_no + 1) line cfg with
    | error status =>
      rw [hline] at h
      cases h
    | ok cfg₁ =>
      rw [hline] at h
      by_cases hblank : content line = []
      · rw [loadLine_blank hblank] at hline
        cases hline
        rw [List.filterMap_cons_none (assignment_blank hblank)]
        exact ih h
      · obtain ⟨key, value, hsome, hassign⟩ := (loadLine_iff hblank _ _ _).1 hline
        rw [List.filterMap_cons_some hsome]
        exact .cons (assignment_trimmed hsome) _ hassign (ih h)

theorem lastValue_cons (key : Bytes) (a : Bytes × Bytes) (as : List (Bytes × Bytes)) :
    lastValue key (a :: as) = (lastValue key as).or (if a.1 = key then some a.2 else none) := by
  by_cases h : a.1 = key
  · simp only [lastValue, List.filter_cons, h, decide_true, if_true, List.getLast?_cons]
    cases (as.filter (·.1 = key)).getLast? <;> rfl
  · simp only [lastValue, List.filter_cons, h, decide_false, Bool.false_eq_true, if_false, Option.or_none]

theorem lastValue_mem {key value : Bytes} {as : List (Bytes × Bytes)} (h : lastValue key as = some value) : (key, value) ∈ as := by
  obtain ⟨⟨key', value'⟩, hlast, rfl⟩ := Option.map_eq_some_iff.1 h
  obtain ⟨hmem, hkey⟩ := List.mem_filter.1 (List.mem_of_getLast? hlast)
  rw [← of_decide_eq_true hkey]
  exact hmem

section
variable {as : List (Bytes × Bytes)} {cfg cfg' : ServerConfig}

/-- The last assignment of a key decides. -/
theorem Assigned.stored (h : Assigned as cfg cfg') (k : NumKey) :
    (lastValue k.name as = none → k.stored cfg' = k.stored cfg) ∧
    ∀ value, lastValue k.name as = some value → ∃ v, k.kind.Means value v ∧ (k.kind.Fits v → k.stored cfg' = v) := by
  induction h with
  | nil cfg => exact ⟨fun _ => rfl, fun _ h => nomatch h⟩
  | @cons key value as cfg cfg₁ cfg' htrim line_no h rest ih =>
    rw [lastValue_cons]
    cases hlast : lastValue k.name as with
    | some last =>
      rw [Option.some_or]
      exact ⟨(nomatch ·), fun last' hsome => ih.2 last' (hlast.trans hsome)⟩
    | none =>
      rw [Option.none_or, ih.1 hlast]
      by_cases hkey : key = k.name
      · rw [if_pos hkey]
        subst hkey
        obtain ⟨n, unit, hreads, -, rfl⟩ := (assign_name_iff htrim k).1 h
        refine ⟨(nomatch ·), fun last hsome => ⟨n * unit, ?_, fun hfit => stored_put hfit cfg⟩⟩
        cases hsome
        exact ⟨n, unit, hreads, rfl⟩
      · rw [if_neg hkey]
        exact ⟨fun _ => (assign_keeps htrim h).2 k hkey, (nomatch ·, ·)⟩

theorem Assigned.data_dir (h : Assigned as cfg cfg') :
    cfg'.engine.data_dir = (lastValue (ascii "data_dir") as).getD cfg.engine.data_dir := by
  induction h with
  | nil cfg => rfl
  | @cons key value as cfg cfg₁ cfg' htrim line_no h rest ih =>
    rw [lastValue_cons, ih, (assign_keeps htrim h).1]
    cases lastValue (ascii "data_dir") as with
    | some last => rfl
    | none =>
      rw [Option.none_or]
      split <;> rfl

end

/-! ## Whole texts -/

theorem loadServerConfig_iff (path : Path) (text : Bytes) (cfg : ServerConfig) :
    loadServerConfig path (some text) = .ok cfg ↔
      loadLines 0 (getlines '\n'.toUInt8 text) initialConfig = .ok cfg ∧
      lastValue (ascii "data_dir") (assignments text) ≠ some [] := by
  simp only [loadServerConfig]
  cases hlines : loadLines 0 (getlines '\n'.toUInt8 text) initialConfig with
  | error status => simp
  | ok cfg₁ =>
    have hdir : cfg₁.engine.data_dir = (lastValue (ascii "data_dir") (assignments text)).getD (ascii "/tmp/pomaiqueue") :=
      (loadLines_assigned hlines).data_dir
    have hempty : cfg₁.engine.data_dir = [] ↔ lastValue (ascii "data_dir") (assignments text) = some [] := by
      rw [hdir]
      cases lastValue (ascii "data_dir") (assignments text) with
      | none => exact ⟨fun h => absurd h (by decide), fun h => nomatch h⟩
      | some last => exact ⟨congrArg some, Option.some.inj⟩
    by_cases h : cfg₁.engine.data_dir = []
    · simp [h, hempty.1 h]
    · have hlast : lastValue (ascii "data_dir") (assignments text) ≠ some [] := fun hnil => h (hempty.2 hnil)
      simp [h, hlast]

theorem loadServerConfig_accepts (path : Path) (text : Bytes) :
    (∃ cfg, loadServerConfig path (some text) = .ok cfg) ↔ WellFormed text := by
  simp only [loadServerConfig_iff, exists_and_right, loadLines_accepts, WellFormed]

example : loadServerConfig (ascii "server.cfg") (some (ascii "# limits\nmax_depth = 3\n")) =
    .error ⟨.kInvalidArgument, ascii "unknown config key 'max_depth' at line 2"⟩ := rfl

/-- In an accepted text the last assignment of every integer and duration key gives the field
its mathematical value, and a text with a number that is negative or too large for its field
is not accepted. -/
def MeansWhatItSays (path : Path) (text : Bytes) : Prop :=
  (∀ cfg, loadServerConfig path (some text) = .ok cfg →
    ∀ (k : NumKey) (value : Bytes), lastValue k.name (assignments text) = some value → k.kind.Means value (k.stored cfg)) ∧
  (∀ (k : NumKey) (value : Bytes) (v : Int), (k.name, value) ∈ assignments text → k.kind.Means value v → ¬ k.kind.Fits v →
    ∀ cfg, loadServerConfig path (some text) ≠ .ok cfg)

/-- A limit of -1 is taken for 4294967295. -/
theorem negative_limit_taken : ¬ MeansWhatItSays (ascii "server.cfg") (ascii "max_inflight=-1\n") := by
  rintro ⟨-, hrejects⟩
  have hload : loadServerConfig (ascii "server.cfg") (some (ascii "max_inflight=-1\n")) =
      .ok { initialConfig with engine.max_inflight := 4294967295 } := rfl
  exact hrejects .max_inflight (ascii "-1") (-1) (by decide) ⟨-1, 1, ⟨by decide, rfl⟩, rfl⟩ (fun hfit => absurd hfit.1 (by decide)) _
    hload

/-- A text means what it says if it has a line that no key takes, or if every number in it,
times its unit, is one its field can hold: the loader does not look at the sign and only
compares the number itself with `2 ^ 64`. -/
theorem means_what_it_says_iff (path : Path) (text : Bytes) :
    MeansWhatItSays path text ↔
      (WellFormed text → ∀ (k : NumKey) (value : Bytes) (v : Int),
        (k.name, value) ∈ assignments text → k.kind.Means value v → k.kind.Fits v) := by
  rw [← loadServerConfig_accepts path]
  constructor
  · rintro ⟨-, hrejects⟩ ⟨cfg, hload⟩ k value v hmem hmeans
    by_contra hfit
    exact hrejects k value v hmem hmeans hfit cfg hload
  · intro hfits
    refine ⟨fun cfg hload k value hlast => ?_, fun k value v hmem hmeans hnot cfg hload => ?_⟩
    · obtain ⟨v, hmeans, hstored⟩ := ((loadLines_assigned ((loadServerConfig_iff _ _ _).1 hload).1).stored k).2 value hlast
      rw [hstored (hfits ⟨cfg, hload⟩ k value v (lastValue_mem hlast) hmeans)]
      exact hmeans
    · exact hnot (hfits ⟨cfg, hload⟩ k value v hmem hmeans)

end PomaiQueue.Server
