/-
Cyclic redundancy checks. `Digest` is the CRC-32 (reflected polynomial, register and result complemented) of the bytes
appended to a file, kept as it grows; `keyHash` is the CRC-64 (unreflected, no complement) of a key, which gives every
process the same column for the same key.
-/
import RowFiles.Text.Utf8

namespace RowFiles

/-- the register after one more bit has left it -/
def crc32Shift (r : UInt32) : UInt32 := if r &&& 1 = 1 then (r >>> 1) ^^^ 0xEDB88320 else r >>> 1

/-- the register after one more byte -/
def crc32Byte (r : UInt32) (b : UInt8) : UInt32 := Nat.repeat crc32Shift 8 (r ^^^ b.toUInt32)

/-- a running CRC-32 -/
structure Digest where
  register : UInt32 := 0xFFFFFFFF
deriving DecidableEq, Repr

namespace Digest

def write (d : Digest) (b : Bytes) : Digest := ⟨b.foldl crc32Byte d.register⟩

/-- the CRC-32 of everything written so far; writing may go on -/
def checksum (d : Digest) : UInt32 := d.register ^^^ 0xFFFFFFFF

/-- the checksum in eight hexadecimal digits, under the name a digest is shown by -/
def text (d : Digest) : String := "Hasher(" ++ (Bytes.bigEndian 4 d.checksum.toNat).toHex ++ ")"

end Digest

def crc64Shift (r : UInt64) : UInt64 := if r >>> 63 = 1 then (r <<< 1) ^^^ 0x42F0E1EBA9EA3693 else r <<< 1

def crc64Byte (r : UInt64) (b : UInt8) : UInt64 := Nat.repeat crc64Shift 8 (r ^^^ (b.toUInt64 <<< 56))

/-- the CRC-64 of bytes -/
def crc64 (b : Bytes) : UInt64 := b.foldl crc64Byte 0

/-- a hash of a key, the same in every process -/
def keyHash (key : String) : UInt64 := crc64 (Utf8.encode key)

end RowFiles
