/-
The lengths and the listing of files. The length of a file cannot be told from its row, whose last cell is padded, so it
has a row of its own with a big-endian number in column 0. One more row lists every file whose length has been written,
a column per file at the hash of its catalog key.

Lengths are held in memory as well. A length set without committing it is dirty until a flush writes it. A failing flush
keeps as dirty every file from the one that failed on; the order in which files are written is not promised.
-/
import RowFiles.Checksum
import RowFiles.Store
import Std.Data.ExtTreeMap
import Std.Data.ExtTreeSet

namespace RowFiles

/-! ## State -/

/-- the lengths held in memory, and the files whose length is yet to be written -/
structure CatalogState where
  lengths : Std.ExtTreeMap Key UInt64 compare := ∅
  dirty : Std.ExtTreeSet Key compare := ∅

namespace CatalogState

instance : Inhabited CatalogState := ⟨{}⟩

variable (s : CatalogState)

def setLength (key : Key) (length : UInt64) : CatalogState := { s with lengths := s.lengths.insert key length }

/-- takes over a length from the store, unless one has been set meanwhile -/
def fill (key : Key) (length : UInt64) : CatalogState := { s with lengths := s.lengths.insertIfNew key length }

def markDirty (key : Key) : CatalogState := { s with dirty := s.dirty.insert key }

def markAllDirty (keys : List Key) : CatalogState := { s with dirty := s.dirty.insertMany keys }

def clean (key : Key) : CatalogState := { s with dirty := s.dirty.erase key }

def forget (key : Key) : CatalogState := { lengths := s.lengths.erase key, dirty := s.dirty.erase key }

/-- drops the lengths that are written -/
def dropClean : CatalogState := { s with lengths := s.lengths.filter fun k _ => s.dirty.contains k }

end CatalogState

/-! ## Layout -/

namespace Catalog

/-- how every catalog key begins -/
def keyHead : String := "__colfs_meta__/"

/-- the row of a file's length -/
def lengthRow (key : Key) : Key := keyHead ++ key

/-- the row that lists the files -/
def listing : Key := "__colfs_meta_keys__"

def lengthColumn : Column := 0

/-- the column of a file in the listing -/
def listingColumn (key : Key) : Column := keyHash (lengthRow key)

/-- the file that an entry of the listing names, if it is a catalog key -/
def fileOf? (entry : String) : Option Key :=
  let head := keyHead.toList
  if head.isPrefixOf entry.toList then some (String.ofList (entry.toList.drop head.length)) else none

end Catalog

/-! ## Operations -/

structure Catalog (m : Type → Type) where
  rows : Rows m
  state : Part m CatalogState
  /-- draws the order in which dirty files are written -/
  order : List Key → m (List Key)

namespace Catalog

variable {m : Type → Type} [Monad m] [MonadExceptOf Error m] (c : Catalog m)

/-- the recorded length of a file -/
def length (key : Key) : m UInt64 := do
  if let some n := (← c.state.read).lengths[key]? then return n
  match ← c.rows.get (lengthRow key) lengthColumn with
  | none => throw (.notFound key)
  | some cell =>
    if cell.length < 8 then throw (.data (.shortLength key cell.length))
    let n := Bytes.toUInt64 cell
    c.state.modify (·.fill key n)
    return (← c.state.read).lengths.getD key n

def has (key : Key) : m Bool := do
  if (← c.state.read).lengths.contains key then pure true else c.rows.hasKey (lengthRow key)

/-- writes a length and then the file's entry in the listing -/
def persist (key : Key) (length : UInt64) : m Unit := do
  c.rows.put (lengthRow key) lengthColumn (Bytes.ofUInt64 length)
  c.rows.put listing (listingColumn key) (Utf8.encode (lengthRow key))

/-- sets the length of a file, written at once if it is to be committed -/
def setLength (key : Key) (length : UInt64) (commit : Bool) : m Unit := do
  c.state.modify (·.setLength key length)
  if commit then
    c.persist key length
    c.state.modify (·.clean key)
  else c.state.modify (·.markDirty key)

/-- writes the lengths of files that are no longer marked dirty; from a failure on they are dirty again -/
def persistAll : List Key → m Unit
  | [] => pure ()
  | key :: rest => do
    if let some n := (← c.state.read).lengths[key]? then
      tryCatch (c.persist key n) fun e => do
        c.state.modify (·.markAllDirty (key :: rest))
        throw e
    persistAll rest

/-- writes every dirty length, then drops the lengths held in memory if they are to be cleared -/
def flush (clear : Bool) : m Unit := do
  let s ← c.state.read
  c.state.write { s with dirty := ∅ }
  c.persistAll (← c.order s.dirty.toList)
  if clear then c.state.modify (·.dropClean)

/-- forgets a file: its length in memory, its length row, then its entry in the listing -/
def delete (key : Key) : m Unit := do
  c.state.modify (·.forget key)
  c.rows.delete (lengthRow key)
  c.rows.deleteColumn listing (listingColumn key)

/-- the files that entries of the listing name -/
def listed : List Bytes → m (List Key)
  | [] => pure []
  | cell :: rest => do
    match Utf8.decode cell with
    | .error fault => throw (.data (.listingNotText fault))
    | .ok entry => return (fileOf? entry).toList ++ (← listed rest)

/-- every file, written or dirty, in ascending order -/
def keys : m (List Key) := do
  let written ← listed (← c.rows.values listing)
  let names := (∅ : Std.ExtTreeSet Key compare).insertMany (written ++ (← c.state.read).dirty.toList)
  return names.toList

end Catalog

end RowFiles
