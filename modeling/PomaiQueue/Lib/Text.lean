import PomaiQueue.Lib.Wire
import Mathlib.Data.List.DropRight
/-!
# Texts

What a program does with the bytes of a text file in C++: lines, white space and
`std::stoull`. A numeral is an optional sign and decimal digits, and has an integer as its
value (`numeral`); `std::stoull` takes those below `2 ^ 64` in magnitude, and it takes a
negative one modulo `2 ^ 64` (`stoull_whole`).
-/

namespace Text

open Wire

/-- `std::isspace` in the C locale. -/
def isspace (c : UInt8) : Bool := c = 0x20 || (0x09 ≤ c && c ≤ 0x0D)

def isdigit (c : UInt8) : Bool := 0x30 ≤ c && c ≤ 0x39

/-- The pieces successive calls of `std::getline` give. After the last delimiter there is
one more only if some byte is left. -/
def getlines (delim : UInt8) (text : Bytes) : List Bytes :=
  let pieces := text.splitOn delim
  if pieces.getLast? = some [] then pieces.dropLast else pieces

/-! ## Numerals -/

def digitsValue (digits : Bytes) : Nat := digits.foldl (fun n c => 10 * n + (c.toNat - 48)) 0

/-- The sign of a numeral, and what stands behind it. -/
def sign : Bytes → Bool × Bytes
  | [] => (false, [])
  | c :: rest => if c = 0x2D then (true, rest) else if c = 0x2B then (false, rest) else (false, c :: rest)

/-- What a text is as an integer, if it is one. -/
def numeral (text : Bytes) : Option Int :=
  let (negative, digits) := sign text
  if digits = [] ∨ ¬ digits.all isdigit then none
  else some (if negative then -(digitsValue digits : Int) else digitsValue digits)

/-- `std::stoull` in base 10: the value and the number of bytes it took, or none for
`std::invalid_argument` and `std::out_of_range`. The sign is applied modulo `2 ^ 64`. -/
def stoull (str : Bytes) : Option (UInt64 × Nat) :=
  let (negative, rest) := sign (str.dropWhile isspace)
  let digits := rest.takeWhile isdigit
  if digits = [] then none
  else if 2 ^ 64 ≤ digitsValue digits then none
  else
    let value := UInt64.ofNat (digitsValue digits)
    some (if negative then -value else value, str.length - rest.length + digits.length)

theorem sign_length (text : Bytes) : (sign text).2.length ≤ text.length := by
  cases text with
  | nil => exact Nat.le_refl 0
  | cons c rest =>
    rw [sign]
    split
    · exact Nat.le_succ _
    · split
      · exact Nat.le_succ _
      · exact Nat.le_refl _

/-- A text whose last byte is neither a digit nor a sign is no numeral. -/
theorem numeral_concat {c : UInt8} (hdigit : isdigit c = false) (hminus : c ≠ 0x2D) (hplus : c ≠ 0x2B) (text : Bytes) :
    numeral (text ++ [c]) = none := by
  obtain ⟨negative, rest, hsign⟩ : ∃ negative rest, sign (text ++ [c]) = (negative, rest ++ [c]) := by
    cases text with
    | nil => exact ⟨false, [], by rw [List.nil_append, sign, if_neg hminus, if_neg hplus]⟩
    | cons d text =>
      rw [List.cons_append, sign]
      split
      · exact ⟨true, text, rfl⟩
      · split
        · exact ⟨false, text, rfl⟩
        · exact ⟨false, d :: text, rfl⟩
  simp [numeral, hsign, hdigit]

theorem ofInt_natCast (n : Nat) : UInt64.ofInt n = UInt64.ofNat n := by
  apply UInt64.toNat_inj.1
  rw [UInt64.ofInt, UInt64.toNat_ofNat', UInt64.toNat_ofNat']
  omega

/-- Where the digits are not all of what follows the sign, there is a byte that is not taken. -/
theorem takeWhile_all {rest : Bytes} : (rest.takeWhile isdigit).length = rest.length ↔ rest.all isdigit = true := by
  rw [List.all_eq_true, ← List.takeWhile_eq_self_iff]
  exact ⟨(List.takeWhile_prefix isdigit).eq_of_length, congrArg List.length⟩

/-- Exactly the texts that are numerals are taken to their last byte. -/
theorem stoull_whole {str : Bytes} (hspace : str.dropWhile isspace = str) (parsed : UInt64) :
    stoull str = some (parsed, str.length) ↔
      ∃ n, numeral str = some n ∧ n.natAbs < 2 ^ 64 ∧ parsed = UInt64.ofInt n := by
  have hle := sign_length str
  simp only [stoull, numeral, hspace]
  generalize sign str = parts at *
  obtain ⟨negative, rest⟩ := parts
  simp only at hle ⊢
  by_cases hall : rest.all isdigit = true
  · have htake : rest.takeWhile isdigit = rest := List.takeWhile_eq_self_iff.2 (List.all_eq_true.1 hall)
    have habs : (if negative then -(digitsValue rest : Int) else digitsValue rest).natAbs = digitsValue rest := by
      split <;> omega
    have hint : UInt64.ofInt (if negative then -(digitsValue rest : Int) else digitsValue rest) =
        if negative then -UInt64.ofNat (digitsValue rest) else UInt64.ofNat (digitsValue rest) := by
      cases negative with
      | true => rw [if_pos rfl, if_pos rfl, UInt64.ofInt_neg, ofInt_natCast]
      | false => rw [if_neg Bool.false_ne_true, if_neg Bool.false_ne_true, ofInt_natCast]
    rw [htake, Nat.sub_add_cancel hle]
    by_cases hempty : rest = []
    · simp [hempty]
    · simp [hempty, hall, habs, hint, eq_comm]
  · have hshort : str.length - rest.length + (rest.takeWhile isdigit).length ≠ str.length := by
      have hlt := (List.takeWhile_prefix (l := rest) isdigit).length_le
      have hne : (rest.takeWhile isdigit).length ≠ rest.length := fun h => hall (takeWhile_all.1 h)
      omega
    simp [hall, hshort]

end Text
