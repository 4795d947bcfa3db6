/-
Steps from documents. A step names what it does, and its fields say with what. A step with a field that is missing, of
the wrong form or out of range is malformed as a whole.
-/
import RowFiles.Scenario.Command
import RowFiles.Settings.Document

namespace RowFiles.Scenario

/-! ## Fields -/

section

variable (d : Document)

def textField? (name : String) : Option String := do (← d.field? name).asText?

def columnField? (name : String) : Option Column := do (← d.field? name).asUInt64?

def natField? (name : String) : Option Nat := do (← d.field? name).asNatBelow? UInt64.size

def wordField? (name : String) : Option UInt64 := do (← d.field? name).asUInt64?

/-- a field that may be left out; a null is read like any other value -/
def optional? {α : Type} (name : String) (read : Document → Option α) : Option (Option α) :=
  match d.field? name with
  | none => some none
  | some v => some <$> read v

/-- a flag that may be left out -/
def flag? (name : String) (default : Bool) : Option Bool := do
  return (← optional? d name Document.asBool?).getD default

/-- a signed 64-bit number -/
def signed? (v : Document) : Option Int := do
  let n ← v.asInt?
  if Int64.minValue.toInt ≤ n ∧ n ≤ Int64.maxValue.toInt then some n else none

/-- the most bytes that a pattern may be repeated or counted for, and the most that are read in one step -/
def longestPattern : Nat := 0x100000

/-- how many bytes are to be read -/
def lengthField? : Option Nat := do (← d.field? "len").asNatBelow? (longestPattern + 1)

/-- byte `i` of the sequence that starts at `a` -/
def sequenceByte (a i : Nat) : UInt8 := UInt8.ofNat (a + 7 * i + i / 256)

/-- bytes: as hexadecimal text, as text, as a pattern repeated, or as a sequence -/
def payload? (v : Document) : Option Payload :=
  match v with
  | .text hex => .bytes <$> Bytes.ofHex? hex
  | .fields _ =>
    match v.field? "text", v.field? "rep", v.field? "seq" with
    | some t, _, _ => .text <$> t.asText?
    | none, some hex, _ => do
      let pattern ← Bytes.ofHex? (← hex.asText?)
      let n ← (← v.field? "n").asNatBelow? (longestPattern + 1)
      return .bytes (List.replicate n pattern).flatten
    | none, none, some a => do
      let a ← a.asNatBelow? UInt64.size
      let n ← (← v.field? "n").asNatBelow? (longestPattern + 1)
      return .bytes ((List.range n).map (sequenceByte a))
    | none, none, none => none
  | _ => none

def payloadField? (name : String) : Option Payload := do payload? (← d.field? name)

/-- a duration, or a whole number of milliseconds -/
def duration? (v : Document) : Option Duration :=
  match v with
  | .integer _ => Duration.ofMillis <$> v.asUInt64?
  | _ => Duration.ofDocument? v

/-- an expiry: none if null, the usual one if left out -/
def expiry? : Option (Option Duration) :=
  match d.field? "expiry" with
  | none => some ({} : LockSettings).tryingExpiry
  | some .null => some none
  | some v => some <$> duration? v

def lengths? (v : Document) : Option Lengths :=
  match v with
  | .list items => .each <$> items.mapM (·.asNatBelow? UInt64.size)
  | _ => .every <$> v.asNatBelow? UInt64.size

/-! ## Making -/

/-- locks that are not given time to settle -/
def lockSettings? : Option LockSettings := do
  return { settleInterval := .ofMillis 0, tryingExpiry := ← expiry? d }

def making? (kind : String) : Option Making := do
  match kind with
  | "memory" => return .memory (← natField? d "col_size")
  | "split" =>
    return .sharded (← textField? d "inner") ⟨← wordField? d "splits", ← textField? d "delimiter"⟩
  | "cache" =>
    return .cached (← textField? d "inner") ((← optional? d "config" CacheSettings.ofDocument?).getD {})
  | "translate" => return .linked (← textField? d "mappings") (← textField? d "inner")
  | "session" => return .session (← flag? d "narrow" true)
  | "wide" =>
    return .wide (← textField? d "session") {
      space := ← textField? d "prefix"
      width := ← natField? d "col_size"
      consistency := (← optional? d "consistency" Consistency.ofDocument?).getD .one }
  | "wide_like" => return .wideLike (← textField? d "from") (← textField? d "prefix")
  | "probe" => return .probe (← textField? d "inner")
  | "policy" => return .policy (← Eviction.ofDocument? (← d.field? "eviction"))
  | "meta" => return .catalog (← textField? d "store")
  | "writer" =>
    match d.field? "dir" with
    | some dir => return .fileWriter (← dir.asText?) (← textField? d "key")
    | none => return .writer (← textField? d "store") (← textField? d "meta") (← textField? d "key")
  | "reader" =>
    match d.field? "dir" with
    | some dir => return .fileReader (← dir.asText?) (← textField? d "key")
    | none => return .reader (← textField? d "store") (← textField? d "key") (← wordField? d "length")
  | "lock" =>
    match d.field? "dir" with
    | some dir => return .fileLock (← dir.asText?) (← textField? d "key")
    | none =>
      return .lock (← textField? d "store") (← textField? d "meta") (← textField? d "key")
        (← wordField? d "signature") (← expiry? d)
  | "dir" => do
    let fastCopy ← flag? d "fast_copy" true
    return .directory (← textField? d "data") (← textField? d "meta")
      ⟨← flag? d "with_fast_copy" fastCopy, ← lockSettings? d⟩
  | "scheduler" => return .scheduler
  | "ticks" =>
    return .ticks (← duration? (← d.field? "interval")) ((← optional? d "takes" lengths?).getD (.every 0))
      (← optional? d "panic_on" (·.asNatBelow? UInt64.size)) (← flag? d "fail" false)
  | _ => none

/-! ## Steps -/

def storeStep? (kind : String) : Option StoreStep := do
  match kind with
  | "put" => return .put (← textField? d "key") (← columnField? d "col") (← payloadField? d "value")
  | "get" => return .get (← textField? d "key") (← columnField? d "col")
  | "delete" => return .delete (← textField? d "key")
  | "delete_col" => return .deleteColumn (← textField? d "key") (← columnField? d "col")
  | "has_key" => return .hasKey (← textField? d "key")
  | "all_values" => return .values (← textField? d "key")
  | "all_keys" => return .keys
  | "col_size" => return .width
  | "sync" => return .sync
  | "caps" => return .abilities
  | "translate" => return .resolve (← textField? d "key")
  | "link" => return .link (← textField? d "key") (← textField? d "physical")
  | "unlink" => return .unlink (← textField? d "key")
  | _ => none

def cacheStep? (kind : String) : Option CacheStep := do
  match kind with
  | "flush" => return .flush (← flag? d "empty" false)
  | "evict" => return .evict
  | "len" => return .size
  | "is_cached" => return .isCached (← textField? d "key") (← columnField? d "col")
  | "is_dirty" => return .isMarked (← textField? d "key") (← columnField? d "col")
  | "cell" => return .cell (← textField? d "key") (← columnField? d "col")
  | "config" => return .settings
  | "task_run" => return .runTask
  | _ => none

def sessionStep? (kind : String) : Option SessionStep := do
  match kind with
  | "down" => return .down (← optional? d "message" Document.asText?)
  | "stats" => return .stats
  | "put" =>
    return .put (← textField? d "key") (Int64.ofInt (← signed? (← d.field? "name"))) (← payloadField? d "value")
  | "delete_row" => return .deleteRow (← textField? d "key")
  | _ => none

def policyStep? (kind : String) : Option PolicyStep := do
  let key ← textField? d "key"
  let column ← columnField? d "col"
  match kind with
  | "note_get" => return .noteGet key column
  | "note_put" => return .notePut key column
  | "should_evict" => return .shouldEvict key column
  | "remove" => return .remove key column
  | _ => none

def clockStep? (kind : String) : Option ClockStep := do
  match kind with
  | "set" => return .set (← wordField? d "ms")
  | "advance" => return .advance (← wordField? d "ms")
  | "now" => return .now
  | _ => none

def catalogStep? (kind : String) : Option CatalogStep := do
  match kind with
  | "length" => return .length (← textField? d "key")
  | "exists" => return .has (← textField? d "key")
  | "delete" => return .delete (← textField? d "key")
  | "set" => return .setLength (← textField? d "key") (← wordField? d "length") (← flag? d "commit" false)
  | "flush" => return .flush (← flag? d "clear" false)
  | "all_keys" => return .keys
  | _ => none

def writerStep? (kind : String) : Option WriterStep := do
  match kind with
  | "write" => return .write (← payloadField? d "value")
  | "byte" => return .writeByte (UInt8.ofNat (← (← d.field? "byte").asNatBelow? 256))
  | "flush" => return .flush
  | "io_write" => return .streamWrite (← payloadField? d "value")
  | "io_flush" => return .streamFlush
  | "state" => return .state
  | "close" => return .close
  | _ => none

def seekFrom? : Option SeekFrom := do
  match ← textField? d "from" with
  | "start" => return .start (← wordField? d "offset")
  | "current" => return .current (← signed? (← d.field? "offset"))
  | "end" => return .stop (← signed? (← d.field? "offset"))
  | _ => none

def readerStep? (kind : String) : Option ReaderStep := do
  match kind with
  | "byte" => return .byte (← wordField? d "offset")
  | "bytes" => return .bytes (← wordField? d "offset") (← lengthField? d)
  | "read" => return .read (← lengthField? d)
  | "read_exact" => return .readExact (← lengthField? d)
  | "read_to_end" => return .readToEnd
  | "seek" => return .seek (← seekFrom? d)
  | "state" => return .state
  | _ => none

def lockStep? : String → Option LockStep
  | "obtain" => some .obtain
  | "close" => some .close
  | "is_locked" => some .isLocked
  | "is_owner" => some .isOwner
  | "name" => some .name
  | "signature" => some .signature
  | _ => none

def directoryStep? (kind : String) : Option DirectoryStep := do
  match kind with
  | "list" => return .list
  | "sync" => return .sync
  | "config" => return .settings
  | "exists" => return .has (← textField? d "key")
  | "length" => return .length (← textField? d "key")
  | "delete" => return .delete (← textField? d "key")
  | "clear_lock" => return .clearLock (← textField? d "key")
  | "copy" => return .copy (← textField? d "key") (← textField? d "to") (← textField? d "dest")
  | "write" => return .write (← textField? d "key") (← payloadField? d "value")
  | "read" => return .read (← textField? d "key")
  | _ => none

def schedulerStep? (kind : String) : Option SchedulerStep := do
  match kind with
  | "register" => return .register (← textField? d "task")
  | "shutdown" => return .shutdown
  | _ => none

/-! ## Rules -/

def callName? : String → Option (Option CallName)
  | "any" => some none
  | "put" => some (some .put)
  | "get" => some (some .get)
  | "delete" => some (some .delete)
  | "delete_col" => some (some .deleteColumn)
  | "has_key" => some (some .hasKey)
  | "all_values" => some (some .values)
  | "all_keys" => some (some .keys)
  | "sync" => some (some .sync)
  | _ => none

def errorKind? : String → Option ErrorKind
  | "IoError" => some .stream
  | "NotFound" => some .notFound
  | "Backend" => some .backend
  | "InvalidFastCopy" => some .fastCopy
  | "InvalidData" => some .data
  | "InvalidState" => some .state
  | "InvalidConfig" => some .setting
  | _ => none

/-- a rule, whose rivals run what `read` makes of its steps -/
def rule? (read : Document → Command) : Option (Rule (List Command)) := do
  let kind := (← optional? d "kind" fun v => do errorKind? (← v.asText?)).getD .backend
  return {
    call := ← callName? (← textField? d "on")
    key := ← optional? d "key" Document.asText?
    column := ← optional? d "col" Document.asUInt64?
    skip := (← optional? d "skip" (·.asNatBelow? UInt64.size)).getD 0
    times := ← optional? d "times" (·.asNatBelow? UInt64.size)
    rivals := (← optional? d "steps" Document.asList?).map fun steps => steps.map read
    fail := (← optional? d "fail" Document.asText?).map fun text => kind.error text }

/-! ## All steps -/

/-- a step by its group and its kind within the group -/
def command? (read : Document → Command) (group kind : String) : Option Command := do
  match group with
  | "new" => return .make (← textField? d "id") (← making? d kind)
  | "store" => return .store (← textField? d "store") (← flag? d "uncached" false) (← storeStep? d kind)
  | "split" =>
    if kind ≠ "shard_key" then none
    return .store (← textField? d "store") false (.shardKey (← textField? d "key") (← columnField? d "col"))
  | "wide" =>
    if kind ≠ "prefix" then none
    return .store (← textField? d "store") false .space
  | "memory" =>
    let id ← textField? d "store"
    match kind with
    | "len" => return .memory id .size
    | "columns" => return .memory id (.columns (← textField? d "key"))
    | _ => none
  | "cache" => return .cache (← textField? d "store") (← cacheStep? d kind)
  | "session" => return .session (← textField? d "session") (← sessionStep? d kind)
  | "probe" =>
    let id ← textField? d "store"
    match kind with
    | "rule" => return .addRule id (← rule? d read)
    | "counts" => return .counts id
    | "reset" => return .resetCounts id
    | "clear" => return .clearRules id
    | _ => none
  | "policy" => return .policy (← textField? d "policy") (← policyStep? d kind)
  | "clock" => return .clock (← clockStep? d kind)
  | "meta" => return .catalog (← textField? d "meta") (← catalogStep? d kind)
  | "writer" => return .writer (← textField? d "writer") (← writerStep? d kind)
  | "reader" => return .reader (← textField? d "reader") (← readerStep? d kind)
  | "lock" => return .lock (← textField? d "lock") (← lockStep? kind)
  | "dir" => return .directory (← textField? d "dir") (← directoryStep? d kind)
  | "scheduler" => return .scheduler (← textField? d "scheduler") (← schedulerStep? d kind)
  | "time" =>
    if kind ≠ "sleep" then none
    return .sleep (← wordField? d "ms")
  | "dump" =>
    if kind ≠ "of" then none
    return .dump (← textField? d "of")
  | _ => none

end

/-- the group and the kind that a step's name gives -/
def splitName (name : String) : Option (String × String) :=
  let cs := name.toList
  match cs.dropWhile (· ≠ '.') with
  | _ :: kind => some (String.ofList (cs.takeWhile (· ≠ '.')), String.ofList kind)
  | [] => none

/-- the step that a document gives; the steps of its rules may nest as deep as `depth` -/
def readCommand : Nat → Document → Command
  | 0, _ => .malformed
  | depth + 1, d =>
    match textField? d "do" >>= splitName with
    | some (group, kind) => (command? d (readCommand depth) group kind).getD .malformed
    | none => .malformed

/-- the step that a document gives, whatever its depth -/
def Command.ofDocument (d : Document) : Command := readCommand (d.depth + 1) d

end RowFiles.Scenario
