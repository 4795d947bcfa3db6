/-
Byte strings, with the two written forms they take here: numbers of a fixed width, most significant byte first, and
hexadecimal text.
-/

namespace RowFiles

/-- a byte string -/
abbrev Bytes := List UInt8

namespace Bytes

/-! ## Big-endian numbers -/

/-- the last `k` base-256 digits of `n`, most significant first -/
def bigEndian : Nat → Nat → Bytes
  | 0, _ => []
  | k + 1, n => bigEndian k (n / 256) ++ [UInt8.ofNat n]

/-- the number that base-256 digits spell, most significant first -/
def ofBigEndian (b : Bytes) : Nat := b.foldl (fun n d => n * 256 + d.toNat) 0

/-- a 64-bit number as eight bytes -/
def ofUInt64 (n : UInt64) : Bytes := bigEndian 8 n.toNat

/-- the 64-bit number in the first eight bytes -/
def toUInt64 (b : Bytes) : UInt64 := UInt64.ofNat (ofBigEndian (b.take 8))

@[simp] theorem length_bigEndian (k n : Nat) : (bigEndian k n).length = k := by
  induction k generalizing n with
  | zero => rfl
  | succ k ih => simp [bigEndian, ih]

theorem ofBigEndian_append (a : Bytes) (d : UInt8) : ofBigEndian (a ++ [d]) = ofBigEndian a * 256 + d.toNat := by
  simp [ofBigEndian]

/-- digits are read back as the number they were made of, as far as they hold it -/
theorem ofBigEndian_bigEndian (k n : Nat) : ofBigEndian (bigEndian k n) = n % Nat.pow 256 k := by
  rw [Nat.pow_eq]
  induction k generalizing n with
  | zero => simp [bigEndian, ofBigEndian, Nat.mod_one]
  | succ k ih =>
    rw [bigEndian, ofBigEndian_append, ih, Nat.pow_succ, Nat.mul_comm (256 ^ k) 256, Nat.mod_mul]
    simp
    omega

@[simp] theorem length_ofUInt64 (n : UInt64) : (ofUInt64 n).length = 8 := length_bigEndian 8 _

/-- a number is read back from the bytes that begin with it -/
theorem toUInt64_ofUInt64_append (n : UInt64) (b : Bytes) : toUInt64 (ofUInt64 n ++ b) = n := by
  have h : n.toNat % Nat.pow 256 8 = n.toNat := Nat.mod_eq_of_lt n.toNat_lt
  rw [toUInt64, List.take_append_of_le_length (by simp), List.take_of_length_le (by simp), ofUInt64,
    ofBigEndian_bigEndian, h, UInt64.ofNat_toNat]

@[simp] theorem toUInt64_ofUInt64 (n : UInt64) : toUInt64 (ofUInt64 n) = n := by
  simpa using toUInt64_ofUInt64_append n []

/-! ## Hexadecimal text -/

/-- the digit of a value below sixteen, in lower case -/
def hexDigit (n : Nat) : Char := if n < 10 then Char.ofNat (48 + n) else Char.ofNat (87 + n)

/-- the value of a hexadecimal digit of either case -/
def hexValue? (c : Char) : Option Nat :=
  if '0' ≤ c ∧ c ≤ '9' then some (c.toNat - 48)
  else if 'a' ≤ c ∧ c ≤ 'f' then some (c.toNat - 87)
  else if 'A' ≤ c ∧ c ≤ 'F' then some (c.toNat - 55)
  else none

/-- two lower-case digits a byte -/
def toHex (b : Bytes) : String :=
  String.ofList (b.flatMap fun d => [hexDigit (d.toNat / 16), hexDigit (d.toNat % 16)])

/-- reads pairs of digits onto the reversed bytes read so far -/
def ofHexDigits : List Char → Bytes → Option Bytes
  | [], acc => some acc.reverse
  | [_], _ => none
  | hi :: lo :: rest, acc =>
    match hexValue? hi, hexValue? lo with
    | some h, some l => ofHexDigits rest (UInt8.ofNat (h * 16 + l) :: acc)
    | _, _ => none

/-- the bytes that pairs of digits spell; an odd count or any other character is refused -/
def ofHex? (s : String) : Option Bytes := ofHexDigits s.toList []

end Bytes

end RowFiles
