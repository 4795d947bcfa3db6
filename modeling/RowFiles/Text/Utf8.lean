/-
Text as UTF-8 bytes. Writing always works; reading refuses malformed bytes and says where the fault lies: `start` is
the length of the longest valid beginning, and `stray` counts the bytes there that begin a character but cannot be
completed. When the bytes simply end inside a character there is no such count.
-/
import RowFiles.Bytes

namespace RowFiles.Utf8

/-- the UTF-8 bytes of a text -/
def encode (s : String) : Bytes := s.toByteArray.data.toList

/-- why bytes are no text -/
structure Fault where
  start : Nat
  /-- bytes at `start` that begin a character which the next byte breaks; none if the bytes end first -/
  stray : Option Nat
deriving DecidableEq, Repr

def Fault.message (f : Fault) : String :=
  match f.stray with
  | some n => "invalid utf-8 sequence of " ++ toString n ++ " bytes from index " ++ toString f.start
  | none => "incomplete utf-8 byte sequence from index " ++ toString f.start

/-- the ranges that the bytes after a leading byte must lie in; none if the byte leads no character -/
def tails (lead : UInt8) : Option (List (UInt8 × UInt8)) :=
  let more : UInt8 × UInt8 := (0x80, 0xBF)
  if lead ≤ 0x7F then some []
  else if 0xC2 ≤ lead ∧ lead ≤ 0xDF then some [more]
  else if lead = 0xE0 then some [(0xA0, 0xBF), more]
  else if lead = 0xED then some [(0x80, 0x9F), more]
  else if 0xE1 ≤ lead ∧ lead ≤ 0xEF then some [more, more]
  else if lead = 0xF0 then some [(0x90, 0xBF), more, more]
  else if 0xF1 ≤ lead ∧ lead ≤ 0xF3 then some [more, more, more]
  else if lead = 0xF4 then some [(0x80, 0x8F), more, more]
  else none

/-- looks for the first fault: a character began at `start`, `seen` of its bytes are read and `owed` are to come -/
def scan (start seen : Nat) (owed : List (UInt8 × UInt8)) : Bytes → Option Fault
  | [] => if owed = [] then none else some ⟨start, none⟩
  | b :: rest =>
    match owed with
    | (lo, hi) :: owed => if lo ≤ b ∧ b ≤ hi then scan start (seen + 1) owed rest else some ⟨start, some seen⟩
    | [] =>
      match tails b with
      | some owed => scan (start + seen) 1 owed rest
      | none => some ⟨start + seen, some 1⟩

/-- the text that bytes encode, or the first fault in them -/
def decode (b : Bytes) : Except Fault String :=
  match String.fromUTF8? ⟨b.toArray⟩ with
  | some s => .ok s
  | none => .error ((scan 0 0 [] b).getD ⟨b.length, none⟩)

/-- a text is read back from its bytes -/
@[simp] theorem decode_encode (s : String) : decode (encode s) = .ok s := by
  have h : String.fromUTF8? ⟨(encode s).toArray⟩ = some s := by
    have e : (⟨(encode s).toArray⟩ : ByteArray) = s.toByteArray := by simp [encode]
    rw [e, String.fromUTF8?, dif_pos s.isValidUTF8]
    rfl
  rw [decode, h]

end RowFiles.Utf8
