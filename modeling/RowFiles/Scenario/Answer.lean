/-
Requests and their answers, as documents. A request asks for a checksum, a text or a setting, or for a scenario to be
run from an empty world; a request that means nothing is answered as bad input.
-/
import RowFiles.Scenario.Play
import RowFiles.Scenario.Reading

namespace RowFiles.Scenario

/-! ## Checksums and errors -/

/-- the checksum and the text of a digest after each of some writes; null starts over -/
def digests (d : Digest) : List Document → Option (List Document)
  | [] => some []
  | v :: rest => do
    let d ←
      match v with
      | .null => some {}
      | v => do
        match ← payload? v with
        | .bytes b => some (d.write b)
        | .text s => some (d.write (Utf8.encode s))
    return .list [.ofNat d.checksum.toNat, .text d.text] :: (← digests d rest)

/-- an error, and the stream failure it turns into, and the error made of that again -/
def describeError (e : Error) : Document :=
  let back := Error.stream e.toStream
  .fields [("display", .text e.message), ("is_not_found", .bool e.isNotFound),
    ("source", (e.cause.map fun s => Document.text s.text).getD .null),
    ("io_kind", .text (streamKindName e.toStream.kind)), ("io_display", .text e.toStream.text),
    ("back", .text back.message), ("back_is_not_found", .bool back.isNotFound)]

/-! ## Settings -/

/-- the settings that a document gives, written again; none if there are no settings of that type -/
def readBack? (type : String) (d : Document) : Option (Option Document) :=
  match type with
  | "CacheConfig" => some (CacheSettings.toDocument <$> CacheSettings.ofDocument? d)
  | "SplitConfig" => some (ShardSettings.toDocument <$> ShardSettings.ofDocument? d)
  | "ColumnConfig" => some (WideSettings.toDocument <$> WideSettings.ofDocument? d)
  | "LockConfig" => some (LockSettings.toDocument <$> LockSettings.ofDocument? d)
  | "DirectoryConfig" => some (DirectorySettings.toDocument <$> DirectorySettings.ofDocument? d)
  | "Eviction" => some (Eviction.toDocument <$> Eviction.ofDocument? d)
  | "Consistency" => some (Consistency.toDocument <$> Consistency.ofDocument? d)
  | _ => none

/-- a change to settings: which, and to what -/
def change? : Document → Option (String × Document)
  | .list [.text name, v] => some (name, v)
  | _ => none

def changeCache (s : CacheSettings) (name : String) (v : Document) : Option CacheSettings := do
  match name with
  | "auto_flush" => return { s with autoFlush := ← v.asBool? }
  | "eviction" => return { s with eviction := ← Eviction.ofDocument? v }
  | "eviction_interval" => return { s with evictionInterval := ← duration? v }
  | _ => none

def changeWide (s : WideSettings) (name : String) (v : Document) : Option WideSettings := do
  match name with
  | "new" => return { space := ← v.asText? }
  | "col_size" => return { s with width := ← v.asNatBelow? UInt64.size }
  | "consistency" => return { s with consistency := ← Consistency.ofDocument? v }
  | _ => none

def changeLock (s : LockSettings) (name : String) (v : Document) : Option LockSettings := do
  match name, v with
  | "settle_interval", v => return { s with settleInterval := ← duration? v }
  | "trying_expiry", .null => return { s with tryingExpiry := none }
  | "trying_expiry", v => return { s with tryingExpiry := some (← duration? v) }
  | _, _ => none

def changeDirectory (s : DirectorySettings) (name : String) (v : Document) : Option DirectorySettings := do
  match name with
  | "fast_copy" => return { s with fastCopy := ← v.asBool? }
  | "lock" => return { s with lock := ← LockSettings.ofDocument? v }
  | _ => none

/-- makes changes one after another -/
def changeAll {α : Type} (change : α → String → Document → Option α) : α → List Document → Option α
  | s, [] => some s
  | s, d :: rest => do
    let (name, v) ← change? d
    changeAll change (← change s name v) rest

/-- the default settings of a type after some changes -/
def built? (type : String) (changes : List Document) : Option Document :=
  match type with
  | "CacheConfig" => CacheSettings.toDocument <$> changeAll changeCache {} changes
  | "SplitConfig" => ShardSettings.toDocument <$> changeAll (fun _ _ _ => none) {} changes
  | "ColumnConfig" => WideSettings.toDocument <$> changeAll changeWide {} changes
  | "LockConfig" => LockSettings.toDocument <$> changeAll changeLock {} changes
  | "DirectoryConfig" => DirectorySettings.toDocument <$> changeAll changeDirectory {} changes
  | _ => none

/-! ## Scenarios -/

/-- what can be seen of the watched objects that there are -/
def watched (w : World) (ids : List Name) : Document :=
  .fields (ids.filterMap fun id => do
    let o ← w.objects[id]?
    let r ← o.dump w
    return (id, r.shown w))

/-- carries out steps one after another; `done` is the answers so far, latest first -/
def playAll (watch : Option (List Name)) : World → List Document → List Document → List Document
  | _, done, [] => done.reverse
  | w, done, d :: rest =>
    let (result, w) := play nesting (.ofDocument d) w
    let entries := answerEntries w result ++ (watch.map fun ids => ("watch", watched w ids)).toList
    playAll watch w (.fields entries :: done) rest

def runScenario? (d : Document) : Option Document := do
  let clock := (← optional? d "clock" Document.asUInt64?).getD 0
  let watch ← optional? d "watch" fun v => do (← v.asList?).mapM Document.asText?
  let steps ← (← d.field? "steps").asList?
  let seed := keyHash (String.join d.texts)
  return .fields [("steps", .list (playAll watch { clock := clock, seed := seed } [] steps))]

/-! ## Requests -/

def ok (d : Document) : Document := .fields [("ok", d)]

/-- an answer to a request, if it means anything -/
def answer? (d : Document) : Option Document := do
  match ← textField? d "op" with
  | "hasher" => return ok (.list (← digests {} (← (← d.field? "writes").asList?)))
  | "key_hash" => return ok (.ofNat (keyHash (← textField? d "key")).toNat)
  | "ddl" => return ok (.text (createTable (← textField? d "keyspace") (← textField? d "table")))
  | "error" => return ok (describeError ((← errorKind? (← textField? d "variant")).error (← textField? d "text")))
  | "split_validate" =>
    match (ShardSettings.mk (← wordField? d "splits") (← textField? d "delimiter")).validate with
    | .ok () => return ok .null
    | .error e => return .fields ((Halt.failed e).document {})
  | "config" =>
    match ← readBack? (← textField? d "type") (← d.field? "json") with
    | some v => return ok (.fields [("value", v)])
    | none => return ok (.fields [("rejected", .bool true)])
  | "config_build" => return ok (← built? (← textField? d "type") (← (← d.field? "calls").asList?))
  | "bytes" => return ok ((Reply.cell (some (World.bytesOf {} (← payloadField? d "value")))).shown {})
  | "run" => runScenario? d
  | _ => none

/-- how deeply the documents that are read as requests may be nested -/
def deepestRequest : Nat := 127

/-- the answer to a request -/
def answer (d : Document) : Document :=
  ((if d.depth ≤ deepestRequest then some d else none).bind answer?).getD (.fields (Halt.refused.document {}))

end RowFiles.Scenario
