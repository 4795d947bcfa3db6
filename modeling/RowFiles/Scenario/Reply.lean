/-
What the steps of a scenario answer, and the documents that show it. Absent cells are null, bytes are hexadecimal text,
and generated keys are written as their placeholders; what has no order of its own is sorted after that.
-/
import RowFiles.Scenario.World
import RowFiles.Settings.Document

namespace RowFiles.Scenario

/-! ## Replies -/

inductive Reply where
  | nothing
  | flag (yes : Bool)
  | number (n : Nat)
  | text (s : String)
  | cell (value : Option Bytes)
  | cells (values : List Bytes)
  /-- keys in no order -/
  | keySet (keys : List Key)
  /-- keys in their order -/
  | keyList (keys : List Key)
  /-- cells of a table with their addresses -/
  | table (entries : List (Key × Int × Bytes))
  | list (items : List Reply)
  | fields (entries : List (String × Reply))
  | document (d : Document)

/-- why a step gives no reply -/
inductive Halt where
  /-- the step means nothing, or not to the objects there are -/
  | refused
  | failed (e : Error)
  /-- a byte stream failed -/
  | streamFailed (e : StreamError)

/-! ## As documents -/

def World.showKey (w : World) (k : Key) : Document := .text (w.showText k)

def World.showHex (w : World) (v : Bytes) : String := Bytes.toHex (w.showBytes v)

def World.showCell (w : World) (v : Bytes) : Document := .text (w.showHex v)

/-- cells of a table in the order of dumps: by key, then by column, then by value, each as it is shown -/
def entryLe (a b : String × Int × String) : Bool :=
  (((compare a.1 b.1).then (compare a.2.1 b.2.1)).then (compare a.2.2 b.2.2)).isLE

mutual

def Reply.shown (w : World) : Reply → Document
  | .nothing => .null
  | .flag yes => .bool yes
  | .number n => .ofNat n
  | .text s => .text (w.showText s)
  | .cell none => .null
  | .cell (some v) => w.showCell v
  | .cells values => .list (values.map w.showCell)
  | .keySet keys => .list (((keys.map w.showText).mergeSort (· ≤ ·)).map .text)
  | .keyList keys => .list (keys.map w.showKey)
  | .table entries =>
    let shown := entries.map fun c => (w.showText c.1, c.2.1, w.showHex c.2.2)
    .list ((shown.mergeSort entryLe).map fun c => .list [.text c.1, .integer c.2.1, .text c.2.2])
  | .list items => .list (Reply.documents w items)
  | .fields entries => .fields (Reply.namedDocuments w entries)
  | .document d => d

def Reply.documents (w : World) : List Reply → List Document
  | [] => []
  | r :: rs => r.shown w :: Reply.documents w rs

def Reply.namedDocuments (w : World) : List (String × Reply) → List (String × Document)
  | [] => []
  | (name, r) :: rs => (name, r.shown w) :: Reply.namedDocuments w rs

end

/-- the name of an error's kind, as answers give it -/
def kindName : Error → String
  | .stream _ => "IoError"
  | .notFound _ => "NotFound"
  | .backend _ => "Backend"
  | .fastCopy _ => "InvalidFastCopy"
  | .data _ => "InvalidData"
  | .state _ => "InvalidState"
  | .setting _ => "InvalidConfig"
  | .tooLarge => "panic"

def streamKindName : StreamKind → String
  | .notFound => "NotFound"
  | .invalidInput => "InvalidInput"
  | .unexpectedEnd => "UnexpectedEof"
  | .other => "Other"

/-- an error as an answer; what is too large and a lost task are shown without their text -/
def Halt.document (w : World) : Halt → List (String × Document)
  | .refused => [("error", .text "BadInput")]
  | .failed .tooLarge => [("error", .text (kindName .tooLarge))]
  | .failed (.state .taskLost) => [("error", .text (kindName (.state .taskLost)))]
  | .failed e => [("error", .text (kindName e)), ("message", .text (w.showText e.message))]
  | .streamFailed e => [("error", .text ("io:" ++ streamKindName e.kind)), ("message", .text (w.showText e.text))]

/-- the entries of an answer: a reply, or why there is none -/
def answerEntries (w : World) : Except Halt Reply → List (String × Document)
  | .ok r => [("ok", r.shown w)]
  | .error h => h.document w

/-! ## Dumps -/

/-- how often each item occurs, for those that do -/
def tally {α : Type} [BEq α] (names : List (α × String)) (log : List α) : List (String × Reply) :=
  names.filterMap fun (a, name) =>
    let n := log.count a
    if n = 0 then none else some (name, .number n)

def callNames : List (CallName × String) :=
  [(.put, "put"), (.get, "get"), (.delete, "delete"), (.deleteColumn, "delete_col"), (.hasKey, "has_key"),
    (.values, "all_values"), (.keys, "all_keys"), (.sync, "sync")]

/-- the calls a probe has counted, and the bytes put if there was a put -/
def probeCounts {σ : Type} (s : ProbeState σ) : Reply :=
  .fields (tally callNames s.calls ++ if s.calls.contains .put then [("put_bytes", .number s.bytes)] else [])

def statementNames : List (Statement × String) :=
  [(.insert, "insert"), (.select, "select"), (.selectRow, "select_row"), (.hasRow, "exists"),
    (.deleteRow, "delete_row"), (.deleteCell, "delete_cell"), (.keys, "keys")]

def levelNames : List (Consistency × String) := [.one, .quorum, .localQuorum, .all].map fun c => (c, c.name)

/-- the statements a session has run, and their levels -/
def sessionStats (s : SessionTable) : Reply :=
  .fields [("calls", .fields (tally statementNames (s.log.map Prod.fst))),
    ("levels", .fields (tally levelNames (s.log.map Prod.snd)))]

def WriterPlace.reply (p : WriterPlace) (s : WriterState) : Reply :=
  .fields [("key", .text p.key), ("pointer", .number s.pointer.toNat), ("checksum", .number s.digest.checksum.toNat)]

def ReaderPlace.reply (p : ReaderPlace) (s : ReaderState) : Reply :=
  .fields [("key", .text p.key), ("length", .number p.length.toNat), ("position", .number s.position.toNat)]

/-- what can be seen of an object, if anything can -/
def Object.dump (w : World) : Object → Option Reply
  | .store (.memory slot _) =>
    some (.table (((w.tables.getD slot .empty).toList).map fun p => (p.1.key, (p.1.column.toNat : Int), p.2)))
  | .store (.cached slot _ _) => some (.number (w.caches.getD slot {}).table.size)
  | .store (.probed slot _) => some (probeCounts (w.probes.getD slot {}))
  | .session slot =>
    some (.table (((w.sessions.getD slot {}).table.toList).map fun p => (p.1.key, p.1.column.toInt, p.2)))
  | .writer p => some (p.reply (w.writers.getD p.slot {}))
  | .closedWriter => some .nothing
  | .reader p => some (p.reply (w.readers.getD p.slot {}))
  | .lock p => some (.flag (w.locks.getD p.slot false))
  | .ticks slot _ =>
    let t := w.ticks.getD slot {}
    some (.list [.number t.started, .number t.finished, .number t.lastRun])
  | _ => none

end RowFiles.Scenario
