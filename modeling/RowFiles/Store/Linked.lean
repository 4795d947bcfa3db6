/-
Keys as links. A linked store keeps no row under the caller's key: the key's row in a separate store of links holds, in
column 0, the physical key that all calls go to. A key without a link is given a fresh physical key on first use, reads
included. Moving a link moves a row without touching its cells.

Deleting a row deletes the physical row, for every key that links to it, and then drops the link of the one key.
-/
import RowFiles.Store

namespace RowFiles

structure LinkTable (m : Type → Type) where
  /-- where links are kept -/
  links : Rows m
  /-- draws a new physical key of a length -/
  freshKey : Nat → m Key

namespace LinkTable

variable {m : Type → Type} [Monad m] [MonadExceptOf Error m] (t : LinkTable m)

/-- the column of a link -/
def linkColumn : Column := 0

/-- the link of a key, if it has one -/
def lookup (key : Key) : m (Option Key) := do
  match ← t.links.get key linkColumn with
  | none => pure none
  | some cell =>
    match Utf8.decode cell with
    | .ok physical => pure (some physical)
    | .error fault => throw (.data (.linkNotText key fault))

def link (key physical : Key) : m Unit := t.links.put key linkColumn (Utf8.encode physical)

def unlink (key : Key) : m Unit := t.links.delete key

/-- the link of a key; one is made if two looks find none -/
def resolve (key : Key) : m Key := do
  if let some physical ← t.lookup key then return physical
  if let some physical ← t.lookup key then return physical
  let physical ← t.freshKey t.links.width
  t.link key physical
  return physical

def linker : Linker m := ⟨t.resolve, t.link, t.unlink⟩

/-- the calls of a store whose keys are links into `inner` -/
def rows (inner : Rows m) : Rows m where
  width := inner.width
  put k c v := do inner.put (← t.resolve k) c v
  get k c := do inner.get (← t.resolve k) c
  delete k := do
    inner.delete (← t.resolve k)
    t.unlink k
  deleteColumn k c := do inner.deleteColumn (← t.resolve k) c
  hasKey k := do inner.hasKey (← t.resolve k)
  values k := do inner.values (← t.resolve k)
  keys := throw (.state .notEnumerable)
  sync := inner.sync

/-- a linked store offers its links, and hides the buffering of the store beneath it -/
def store (inner : Store m) : Store m := { t.rows inner.toRows with linker := some t.linker }

end LinkTable

end RowFiles
