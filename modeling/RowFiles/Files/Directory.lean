/-
A directory of files over a data store and a catalog. The bytes of a file lie in the data store, in the row of its
name; its length and listing lie in the catalog. Locks live in the data store, beneath any buffering.

`copy` has two ways. Where both directories allow it, both data stores are linked and their widths agree, the
destination's link is pointed at the source's row and the source is dropped. Otherwise the bytes are copied, and the
source stays.
-/
import RowFiles.Files.Reader
import RowFiles.Files.Writer
import RowFiles.Lock

namespace RowFiles

structure Directory (m : Type → Type) where
  /-- tells directories apart; two over the same stores are still two -/
  identity : Nat
  data : Store m
  catalog : Catalog m
  settings : DirectorySettings
  now : m UInt64
  order : List (Address Column) → m (List (Address Column))

namespace Directory

variable {m : Type → Type} [Monad m] [MonadExceptOf Error m]

section

variable (d : Directory m)

def list : m (List Key) := d.catalog.keys

def has (name : Key) : m Bool := d.catalog.has name

def length (name : Key) : m UInt64 := d.catalog.length name

/-- removes a file's row, then its length and listing -/
def remove (name : Key) : m Unit := do
  d.data.delete name
  d.catalog.delete name

def delete (name : Key) : m Unit := do
  if !(← d.has name) then throw (.notFound name)
  d.remove name

def removeIfPresent (name : Key) : m Unit := do
  if ← d.has name then d.remove name

/-- breaks a lock, whoever holds it -/
def clearLock (name : Key) : m Unit := d.remove name

/-- writes out buffered data, then lengths -/
def sync : m Unit := do
  d.data.sync
  d.catalog.flush false
  d.catalog.rows.sync

/-- the state of a new writer on a file -/
def startWriter (name : Key) : m WriterState := Writer.start d.data.toRows d.catalog name

def writer (name : Key) (state : Part m WriterState) : Writer m := ⟨d.data.toRows, d.catalog, name, state, d.order⟩

def reader (name : Key) (length : UInt64) (state : Part m ReaderState) : Reader m :=
  ⟨d.data.toRows, name, length, state⟩

def lock (name : Key) (signature : UInt64) (owned : Part m Bool) : Lock m :=
  .ofStore d.data d.catalog d.settings.lock.tryingExpiry d.now name signature owned

end

/-! ## Files read and written in one go -/

/-- what a run holds for itself: a reader and a writer -/
abbrev Local (m : Type → Type) := StateT (ReaderState × WriterState) m

section

variable (d : Directory m)

/-- the directory's catalog, called from a run with a reader and a writer of its own -/
def localCatalog : Catalog (Local m) where
  rows := d.catalog.rows.lift
  state := ⟨liftM d.catalog.state.read, fun s => liftM (d.catalog.state.write s)⟩
  order keys := liftM (d.catalog.order keys)

def localWriter (name : Key) : Writer (Local m) where
  rows := d.data.toRows.lift
  catalog := d.localCatalog
  key := name
  state := ⟨Prod.snd <$> get, fun w => modify fun s => (s.1, w)⟩
  order as := liftM (d.order as)

def localReader (name : Key) (length : UInt64) : Reader (Local m) where
  rows := d.data.toRows.lift
  key := name
  length := length
  state := ⟨Prod.fst <$> get, fun r => modify fun s => (r, s.2)⟩

/-- opens a file for reading, at its length now -/
def withReader {α : Type} (name : Key) (use : Reader (Local m) → Local m α) : m α := do
  let length ← d.length name
  (use (d.localReader name length)).run' ({}, {})

/-- opens a file for appending, and closes the writer after use -/
def withWriter {α : Type} (name : Key) (use : Writer (Local m) → Local m α) : m α := do
  let writer ← d.startWriter name
  let session : Local m α := do
    let a ← use (d.localWriter name)
    (d.localWriter name).close
    return a
  session.run' ({}, writer)

/-- the first bytes of a file, as many as its length says -/
def readFile (name : Key) : m Bytes := d.withReader name fun r => r.readBytes 0 r.length.toNat

end

/-! ## Copies -/

/-- how many columns are copied at a time -/
def copyColumns : Nat := 16

/-- moves the link of a file -/
def linkCopy (source : Directory m) (src : Key) (dest : Directory m) (dst : Key) : m Unit := do
  if !(source.settings.fastCopy && dest.settings.fastCopy) then throw (.fastCopy .disabled)
  match source.data.linker, dest.data.linker with
  | some sourceLinks, some destLinks =>
    if source.data.width ≠ dest.data.width then
      throw (.fastCopy (.widthsDiffer source.data.width dest.data.width))
    let length ← source.length src
    dest.removeIfPresent dst
    let physical ← sourceLinks.resolve src
    destLinks.link dst physical
    dest.catalog.setLength dst length true
    source.catalog.delete src
    sourceLinks.unlink src
  | _, _ => throw (.fastCopy .notLinked)

/-- copies `n` chunks of a file from chunk `i` on -/
def copyChunks (reader : Reader (Local m)) (writer : Writer (Local m)) (chunk i : Nat) : Nat → Local m Unit
  | 0 => pure ()
  | n + 1 => do
    let size := min chunk (reader.length.toNat - i * chunk)
    writer.write (← reader.readBytes (UInt64.ofNat (i * chunk)) size)
    copyChunks reader writer chunk (i + 1) n

/-- copies the bytes of a file -/
def byteCopy (source : Directory m) (src : Key) (dest : Directory m) (dst : Key) : m Unit := do
  let length ← source.length src
  dest.removeIfPresent dst
  let writer ← dest.startWriter dst
  checkWord (source.data.width * copyColumns)
  let chunk := max (source.data.width * copyColumns) 1
  let copying : Local m Unit := do
    copyChunks (source.localReader src length) (dest.localWriter dst) chunk 0 ((length.toNat + chunk - 1) / chunk)
    (dest.localWriter dst).close
  copying.run' ({}, writer)

/-- copies a file over another, which is replaced; a file copied onto itself only has to exist -/
def copy (source : Directory m) (src : Key) (dest : Directory m) (dst : Key) : m Unit := do
  if source.identity = dest.identity ∧ src = dst then
    let _ ← source.length src
  else
    tryCatch (linkCopy source src dest dst) fun
      | .fastCopy _ => byteCopy source src dest dst
      | e => throw e

end Directory

end RowFiles
