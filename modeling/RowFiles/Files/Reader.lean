/-
Reading a file at any offset, and through a cursor. The length is fixed when the reader is opened: the cursor stops
there, while reads at an offset go on with zeros. The last column fetched is kept for the next read.
-/
import RowFiles.Files.Layout

namespace RowFiles

structure ReaderState where
  position : UInt64 := 0
  /-- the last column fetched -/
  current : Option (Column × Bytes) := none
deriving DecidableEq, Repr

instance : Inhabited ReaderState := ⟨{}⟩

/-- where a cursor is moved from, and how far -/
inductive SeekFrom where
  | start (position : UInt64)
  | current (offset : Int)
  | stop (offset : Int)
deriving DecidableEq, Repr

structure Reader (m : Type → Type) where
  rows : Rows m
  key : Key
  length : UInt64
  state : Part m ReaderState

namespace Reader

variable {m : Type → Type} [Monad m] [MonadExceptOf Error m] (r : Reader m)

def width : m Nat := if r.rows.width = 0 then throw (.setting .zeroWidth) else pure r.rows.width

/-- a column's cell, fetched unless it is the one kept; an absent cell reads as an empty one -/
def column (c : Column) : m Bytes := do
  let s ← r.state.read
  match s.current with
  | some (kept, cell) => if kept = c then pure cell else fetch c
  | none => fetch c
where
  fetch (c : Column) : m Bytes := do
    let cell := (← r.rows.get r.key c).getD []
    r.state.modify fun s => { s with current := some (c, cell) }
    pure cell

def readByte (offset : UInt64) : m UInt8 := do
  let w ← r.width
  let cell ← r.column (UInt64.ofNat (offset.toNat / w))
  pure (cell.getD (offset.toNat % w) 0)

/-- the bytes of one span, behind which there has to be a position -/
def piece (s : Layout.Span) : m Bytes := do
  let cell ← r.column s.columnNumber
  checkWord (s.stop r.rows.width)
  pure (Layout.slice cell s.offset s.size)

/-- `len` bytes from an offset on, zeros where the row has none -/
def readBytes (offset : UInt64) (len : Nat) : m Bytes := do
  let w ← r.width
  if longestBuffer < len then throw .tooLarge
  return (← (Layout.spans w offset.toNat len).mapM r.piece).flatten

/-! ## The cursor -/

/-- how many bytes lie between the cursor and the end -/
def remaining : m Nat := do return r.length.toNat - (← r.state.read).position.toNat

/-- at most `len` bytes from the cursor on, which moves past them; it stays where it is if the read fails -/
def read (len : Nat) : m Bytes := do
  let n := min len (← r.remaining)
  if n = 0 then return []
  let bytes ← r.readBytes (← r.state.read).position n
  r.state.modify fun s => { s with position := s.position + UInt64.ofNat n }
  return bytes

/-- exactly `len` bytes from the cursor on; where the file ends first they are read all the same -/
def readExact (len : Nat) : m Bytes := do
  let bytes ← r.read len
  if bytes.length < len then throw (.stream .ended)
  return bytes

/-- all bytes from the cursor on -/
def readToEnd : m Bytes := do r.read (← r.remaining)

/-- where a seek leads, if that is a 64-bit position -/
def target (position : UInt64) : SeekFrom → Option UInt64
  | .start p => some p
  | .current d => within (position.toNat + d)
  | .stop d => within (r.length.toNat + d)
where
  within (p : Int) : Option UInt64 := if 0 ≤ p ∧ p < UInt64.size then some (UInt64.ofNat p.toNat) else none

def seek (goal : SeekFrom) : m UInt64 := do
  match r.target (← r.state.read).position goal with
  | none => throw (.stream .seekRange)
  | some p =>
    r.state.modify fun s => { s with position := p }
    return p

end Reader

end RowFiles
