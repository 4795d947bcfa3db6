/-
A store in a table that many stores share, reached through a `Session`. Each store puts its space and a slash before
every key. The table names columns by signed 64-bit numbers, which take over the bits of the column number.

Rows that this store has seen to exist are remembered, so `hasKey` need not ask twice; deleting a cell or a row forgets
the row again.

`SessionTable` is a session over a table in memory. It counts each statement and its consistency level, and refuses
every statement while it is down.
-/
import RowFiles.Settings
import RowFiles.Store.Table

namespace RowFiles

/-! ## Sessions -/

/-- the statements that a shared table can run -/
structure Session (m : Type → Type) where
  insert : Key → Int64 → Bytes → Consistency → m Unit
  select : Key → Int64 → Consistency → m (Option Bytes)
  selectRow : Key → Consistency → m (List Bytes)
  hasRow : Key → Consistency → m Bool
  deleteRow : Key → Consistency → m Unit
  deleteCell : Key → Int64 → Consistency → m Unit
  /-- the keys of all rows, perhaps only of those that begin as given -/
  keys : String → Consistency → m (List Key)

/-- the statement that makes a table fit for sessions -/
def createTable (keyspace table : String) : String :=
  "CREATE TABLE IF NOT EXISTS " ++ keyspace ++ "." ++ table ++
    " (key text, name bigint, value blob, PRIMARY KEY (key, name))"

/-! ## Stores -/

/-- the rows that a store has seen to exist -/
abbrev KnownRows := Std.ExtTreeSet Key compare

structure Wide (m : Type → Type) where
  session : Session m
  settings : WideSettings
  known : Part m KnownRows

namespace Wide

variable {m : Type → Type} [Monad m]

/-- how every key of a space begins -/
def spaceHead (space : String) : String := space ++ "/"

/-- the key in the shared table -/
def tableKey (w : Wide m) (key : Key) : Key := spaceHead w.settings.space ++ key

/-- the key in its own space, if it lies there -/
def ownKey? (space : String) (tableKey : Key) : Option Key :=
  let head := (spaceHead space).toList
  let name := tableKey.toList
  if head.isPrefixOf name then some (String.ofList (name.drop head.length)) else none

def rows (w : Wide m) : Rows m where
  width := w.settings.width
  put k c v := do
    w.session.insert (w.tableKey k) c.toInt64 v w.settings.consistency
    w.known.modify (·.insert (w.tableKey k))
  get k c := w.session.select (w.tableKey k) c.toInt64 w.settings.consistency
  delete k := do
    w.session.deleteRow (w.tableKey k) w.settings.consistency
    w.known.modify (·.erase (w.tableKey k))
  deleteColumn k c := do
    w.session.deleteCell (w.tableKey k) c.toInt64 w.settings.consistency
    w.known.modify (·.erase (w.tableKey k))
  hasKey k := do
    if (← w.known.read).contains (w.tableKey k) then return true
    let found ← w.session.hasRow (w.tableKey k) w.settings.consistency
    if found then w.known.modify (·.insert (w.tableKey k))
    return found
  values k := w.session.selectRow (w.tableKey k) w.settings.consistency
  keys := do
    let names ← w.session.keys (spaceHead w.settings.space) w.settings.consistency
    return names.filterMap (ownKey? w.settings.space)
  sync := pure ()

def store (w : Wide m) : Store m := { w.rows with }

end Wide

/-! ## A session in memory -/

/-- the statements of a session -/
inductive Statement where
  | insert | select | selectRow | hasRow | deleteRow | deleteCell | keys
deriving DecidableEq, Repr

structure SessionTable where
  table : Table Int64 := .empty
  /-- whether asking for keys narrows them to those that begin as asked -/
  narrow : Bool := true
  /-- the reason every statement fails with, while there is one -/
  down : Option String := none
  /-- the statements run so far, latest first -/
  log : List (Statement × Consistency) := []

namespace SessionTable

variable {m : Type → Type} [Monad m] [MonadExceptOf Error m]

/-- runs a statement on the table: it is counted, then it fails if the session is down -/
def run {α : Type} (p : Part m SessionTable) (st : Statement) (level : Consistency)
    (f : Table Int64 → α × Table Int64) : m α := do
  p.modify fun s => { s with log := (st, level) :: s.log }
  let s ← p.read
  match s.down with
  | some reason => throw (.backend reason)
  | none =>
    let (a, t) := f s.table
    p.write { s with table := t }
    pure a

def session (p : Part m SessionTable) : Session m where
  insert k n v level := run p .insert level fun t => ((), t.put k n v)
  select k n level := run p .select level fun t => (t.get k n, t)
  selectRow k level := run p .selectRow level fun t => (t.values k, t)
  hasRow k level := run p .hasRow level fun t => (t.hasKey k, t)
  deleteRow k level := run p .deleteRow level fun t => ((), t.delete k)
  deleteCell k n level := run p .deleteCell level fun t => ((), t.deleteColumn k n)
  keys head level := do
    let narrow := (← p.read).narrow
    run p .keys level fun t =>
      (if narrow then t.keys.filter (fun k => head.toList.isPrefixOf k.toList) else t.keys, t)

end SessionTable

end RowFiles
