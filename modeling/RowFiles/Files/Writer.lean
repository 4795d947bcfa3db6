/-
Appending to a file. Columns are put together in a cache of the writer's own and reach the store when the writer is
flushed or closed. Every append sets the file's length, without committing it.
-/
import RowFiles.Files.Catalog
import RowFiles.Files.Layout
import RowFiles.Store.Cached

namespace RowFiles

structure WriterState where
  /-- where the next byte goes -/
  pointer : UInt64 := 0
  /-- the checksum of what was written through this writer -/
  digest : Digest := {}
  cache : CacheState := {}

instance : Inhabited WriterState := ⟨{}⟩

structure Writer (m : Type → Type) where
  rows : Rows m
  catalog : Catalog m
  key : Key
  state : Part m WriterState
  order : List (Address Column) → m (List (Address Column))

namespace Writer

variable {m : Type → Type} [Monad m] [MonadExceptOf Error m]

/-- the state of a new writer on a file, which is made if it has no length yet -/
def start (rows : Rows m) (catalog : Catalog m) (key : Key) : m WriterState := do
  if rows.width = 0 then throw (.setting .zeroWidth)
  let pointer ← tryCatch (catalog.length key) fun e => do
    if !e.isNotFound then throw e
    catalog.setLength key 0 false
    pure 0
  return { pointer := pointer }

variable (w : Writer m)

/-- the writer's own cache, which evicts nothing and so asks for no time -/
def cache : Cache m where
  inner := w.rows
  settings := {}
  state := w.state.focus WriterState.cache fun c s => { s with cache := c }
  now := pure 0
  order := w.order

/-- writes bytes over the spans they are cut into, keeping what else the cells hold; behind each span there has to be a
position -/
def writeSpans : List Layout.Span → Bytes → m Unit
  | [], _ => pure ()
  | s :: spans, buf => do
    let cell := (← w.cache.get w.key s.columnNumber).getD []
    if cell.length < w.rows.width ∧ longestBuffer < w.rows.width then throw .tooLarge
    w.cache.put w.key s.columnNumber (Layout.overlay (Layout.pad w.rows.width cell) s.offset (buf.take s.size))
    checkWord (s.stop w.rows.width)
    writeSpans spans (buf.drop s.size)

/-- appends bytes; the pointer, the checksum and the length move only if all of them are taken -/
def write (buf : Bytes) : m Unit := do
  let pointer := (← w.state.read).pointer
  w.writeSpans (Layout.spans w.rows.width pointer.toNat buf.length) buf
  let stop := pointer + UInt64.ofNat buf.length
  w.state.modify fun s => { s with pointer := stop, digest := s.digest.write buf }
  w.catalog.setLength w.key stop false

/-- writes out the columns and empties the cache, then writes out lengths -/
def flush : m Unit := do
  w.cache.flush true
  w.catalog.flush false

/-- the last flush of a writer, which is not used again -/
def close : m Unit := w.flush

end Writer

end RowFiles
