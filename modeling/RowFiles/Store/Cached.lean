/-
A write-back cache over any store. Puts go to a table in memory and are marked; a flush writes the marked cells to the
store beneath and clears their marks. Gets are served from the table and filled in from beneath on a miss. Cells that
are not marked are clean and may be dropped: by a flush that empties the cache, or by a pass of evictions.

A failing flush marks again every cell from the one that failed on, so a later flush tries them again. The order in
which marked cells are written is not promised: it is drawn by `order`.

Row scans are not cached: the row's marked cells are written first, then the store beneath is asked. Deleting the only
cached cell of a row deletes the whole row beneath.
-/
import RowFiles.Store.Retention

namespace RowFiles

/-! ## State -/

/-- what a cache holds -/
structure CacheState where
  table : Table Column := .empty
  marks : Std.ExtTreeSet (Address Column) compare := ∅
  times : AccessTimes := ∅

namespace CacheState

instance : Inhabited CacheState := ⟨{}⟩

variable (s : CacheState)

def isMarked (a : Address Column) : Bool := s.marks.contains a

def value? (a : Address Column) : Option Bytes := s.table.get a.key a.column

/-- after a put of a cell at a time -/
def put (e : Eviction) (now : UInt64) (a : Address Column) (v : Bytes) : CacheState :=
  { table := s.table.put a.key a.column v, marks := s.marks.insert a, times := e.notePut now a s.times }

/-- takes over a cell from beneath, unless it has been put meanwhile -/
def fill (a : Address Column) (v : Bytes) : CacheState :=
  match s.value? a with
  | some _ => s
  | none => { s with table := s.table.put a.key a.column v }

def noteGet (e : Eviction) (now : UInt64) (a : Address Column) : CacheState :=
  { s with times := e.noteGet now a s.times }

def unmarkAll : CacheState := { s with marks := ∅ }

def unmarkRow (k : Key) : CacheState := { s with marks := s.marks.filter (·.key ≠ k) }

def unmark (a : Address Column) : CacheState := { s with marks := s.marks.erase a }

def remark (as : List (Address Column)) : CacheState := { s with marks := s.marks.insertMany as }

/-- the marked cells of a row -/
def markedIn (k : Key) : List (Address Column) := s.marks.toList.filter (·.key = k)

/-- the rows that have marked cells -/
def markedKeys : List Key := (s.marks.toList.map Address.key).eraseReps

/-- drops the cells that `out` picks, with their times -/
def drop (out : Address Column → Bool) : CacheState :=
  { s with
    table := ⟨s.table.cells.filter fun a _ => !out a⟩
    times := s.times.filter fun a _ => !(out a && s.table.cells.contains a) }

/-- drops the clean cells -/
def dropClean : CacheState := s.drop fun a => !s.isMarked a

/-- whether a pass of evictions takes a cell -/
def evictable (e : Eviction) (now : UInt64) (a : Address Column) : Bool :=
  !s.isMarked a && e.shouldEvict now a s.times

/-- a pass of evictions -/
def evict (e : Eviction) (now : UInt64) : CacheState := s.drop (s.evictable e now)

/-- how many cells a pass of evictions takes -/
def evictCount (e : Eviction) (now : UInt64) : Nat := (s.table.toList.filter fun p => s.evictable e now p.1).length

/-- forgets a row and its times, and its marks -/
def forgetRow (k : Key) : CacheState := (s.drop fun a => a.key = k).unmarkRow k

/-- forgets a cell and its time -/
def forgetCell (a : Address Column) : CacheState :=
  { s with table := s.table.deleteColumn a.key a.column, times := s.times.erase a }

/-- whether a cell is cached and no other cell of its row is -/
def isLastInRow (a : Address Column) : Bool := s.table.columns a.key = [a.column]

end CacheState

/-! ## Operations -/

structure Cache (m : Type → Type) where
  inner : Rows m
  settings : CacheSettings
  state : Part m CacheState
  now : m UInt64
  /-- draws the order in which marked cells are written -/
  order : List (Address Column) → m (List (Address Column))

namespace Cache

variable {m : Type → Type} [Monad m] [MonadExceptOf Error m] (c : Cache m)

/-- writes the cached values of cells that are no longer marked; from a failure on they are marked again -/
def writeOut : List (Address Column) → m Unit
  | [] => pure ()
  | a :: rest => do
    if let some v := (← c.state.read).value? a then
      tryCatch (c.inner.put a.key a.column v) fun e => do
        c.state.modify (·.remark (a :: rest))
        throw e
    writeOut rest

/-- writes every marked cell, then drops the clean cells if the cache is to be emptied -/
def flush (empty : Bool) : m Unit := do
  let s ← c.state.read
  c.state.write s.unmarkAll
  c.writeOut (← c.order s.marks.toList)
  if empty then c.state.modify (·.dropClean)

/-- writes the marked cells of a row -/
def flushRow (k : Key) : m Unit := do
  let s ← c.state.read
  c.state.write (s.unmarkRow k)
  c.writeOut (← c.order (s.markedIn k))

/-- drops the cells that the policy gives up, and counts them -/
def runEvictions : m Nat := do
  let now ← c.now
  let s ← c.state.read
  c.state.write (s.evict c.settings.eviction now)
  pure (s.evictCount c.settings.eviction now)

def put (k : Key) (col : Column) (v : Bytes) : m Unit := do
  let now ← c.now
  c.state.modify (·.put c.settings.eviction now ⟨k, col⟩ v)
  if c.settings.autoFlush then c.flush false

/-- reads a cell that is in the table and notes the access -/
def getCached (a : Address Column) : m (Option Bytes) := do
  let v := (← c.state.read).value? a
  let now ← c.now
  c.state.modify (·.noteGet c.settings.eviction now a)
  pure v

def get (k : Key) (col : Column) : m (Option Bytes) := do
  match (← c.state.read).value? ⟨k, col⟩ with
  | some _ => c.getCached ⟨k, col⟩
  | none =>
    match ← c.inner.get k col with
    | none => pure none
    | some v =>
      c.state.modify (·.fill ⟨k, col⟩ v)
      c.getCached ⟨k, col⟩

def delete (k : Key) : m Unit := do
  c.state.modify (·.forgetRow k)
  c.inner.delete k

def deleteColumn (k : Key) (col : Column) : m Unit := do
  let s ← c.state.read
  c.state.write (s.forgetCell ⟨k, col⟩)
  if s.isLastInRow ⟨k, col⟩ then
    c.state.modify (·.unmarkRow k)
    c.inner.delete k
  else
    c.state.modify (·.unmark ⟨k, col⟩)
    c.inner.deleteColumn k col

def rows : Rows m where
  width := c.inner.width
  put := c.put
  get := c.get
  delete := c.delete
  deleteColumn := c.deleteColumn
  hasKey k := do if (← c.state.read).table.hasKey k then pure true else c.inner.hasKey k
  values k := do c.flushRow k; c.inner.values k
  keys := do
    let pending := (← c.state.read).markedKeys
    return ((← c.inner.keys) ++ pending).eraseDups
  sync := do c.flush false; c.inner.sync

/-- the store of a cache over `inner`: beneath it lie the rows beneath all buffering, or else `inner` itself -/
def store (inner : Store m) : Store m := { c.rows with uncached := some inner.shared }

end Cache

end RowFiles
