/-
How a file lies over a row: byte `p` is byte `p mod width` of column `p / width`. Cells may be shorter than a column,
absent included; the bytes they lack are zeros. Positions are numbers of 64 bits: who goes over the spans of a stretch
gives up at the one that stops beyond.
-/
import RowFiles.Store

namespace RowFiles

/-- a number that comes out has to be one of 64 bits -/
def checkWord {m : Type → Type} [Monad m] [MonadExceptOf Error m] (n : Nat) : m Unit :=
  if n < UInt64.size then pure () else throw .tooLarge

namespace Layout

/-- a stretch of bytes within one column -/
structure Span where
  column : Nat
  offset : Nat
  size : Nat
deriving DecidableEq, Repr

def Span.columnNumber (s : Span) : Column := UInt64.ofNat s.column

/-- the position behind a span, where columns are so wide -/
def Span.stop (width : Nat) (s : Span) : Nat := s.column * width + s.offset + s.size

/-- the columns that bytes `pos` to `pos + len - 1` touch, with the part touched in each, ascending -/
def spans (width pos len : Nat) : List Span :=
  if len = 0 then []
  else
    (List.range ((pos + len - 1) / width + 1 - pos / width)).map fun i =>
      let column := pos / width + i
      let start := max pos (column * width)
      let stop := min (pos + len) ((column + 1) * width)
      ⟨column, start - column * width, stop - start⟩

/-- bytes `offset` to `offset + size - 1` of a cell, zeros where it has none -/
def slice (cell : Bytes) (offset size : Nat) : Bytes :=
  let there := (cell.drop offset).take size
  there ++ List.replicate (size - there.length) 0

/-- a cell made at least `width` bytes long with zeros -/
def pad (width : Nat) (cell : Bytes) : Bytes := cell ++ List.replicate (width - cell.length) 0

/-- a cell with the bytes from `offset` on replaced by others -/
def overlay (cell : Bytes) (offset : Nat) (new : Bytes) : Bytes :=
  cell.take offset ++ new ++ cell.drop (offset + new.length)

end Layout

end RowFiles
