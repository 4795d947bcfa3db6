/-
Settings as documents. Reading needs every field but `trying_expiry`, ignores fields it does not know, and takes
numbers only as integers in range. A choice without a value is its name, or one field of that name with a null; a choice
with a value is one field. A duration has exactly the fields `secs` and `nanos`. What has fields may also be written as
the list of all their values, in order.
-/
import RowFiles.Document
import RowFiles.Settings

namespace RowFiles

/-! ## Choices -/

/-- the choice that a document names, with its value if it has one -/
def Document.choice? : Document → Option (String × Option Document)
  | .text name => some (name, none)
  | .fields [(name, v)] => some (name, some v)
  | _ => none

/-- a choice without a value, of some names -/
def Document.unitChoice? {α : Type} (names : List (String × α)) (d : Document) : Option α :=
  match d.choice? with
  | some (name, none) | some (name, some .null) => names.lookup name
  | _ => none

/-- a document with fields of some names, or the list of their values as one -/
def Document.record? (names : List String) : Document → Option Document
  | .fields entries => some (.fields entries)
  | .list items => if items.length = names.length then some (.fields (names.zip items)) else none
  | _ => none

/-! ## Durations -/

namespace Duration

def ofDocument? (d : Document) : Option Duration := do
  match ← d.record? ["secs", "nanos"] with
  | .fields entries =>
    if entries.length ≠ 2 then none
    let d := Document.fields entries
    let secs ← (← d.field? "secs").asNatBelow? UInt64.size
    let nanos ← (← d.field? "nanos").asNatBelow? UInt32.size
    ofParts? secs nanos
  | _ => none

def toDocument (d : Duration) : Document :=
  .fields [("secs", .ofNat d.seconds.toNat), ("nanos", .ofNat d.nanos.val)]

end Duration

/-! ## Settings -/

namespace Eviction

def ofDocument? (d : Document) : Option Eviction :=
  match d.choice? with
  | some ("LastRead", some v) => .lastRead <$> Duration.ofDocument? v
  | some ("LastWrite", some v) => .lastWrite <$> Duration.ofDocument? v
  | _ => d.unitChoice? [("Never", .never), ("Always", .always)]

def toDocument : Eviction → Document
  | .never => .text "Never"
  | .always => .text "Always"
  | .lastRead age => .fields [("LastRead", age.toDocument)]
  | .lastWrite age => .fields [("LastWrite", age.toDocument)]

end Eviction

namespace CacheSettings

def ofDocument? (d : Document) : Option CacheSettings := do
  let d ← d.record? ["auto_flush", "eviction", "eviction_interval"]
  return {
    autoFlush := ← (← d.field? "auto_flush").asBool?
    eviction := ← Eviction.ofDocument? (← d.field? "eviction")
    evictionInterval := ← Duration.ofDocument? (← d.field? "eviction_interval") }

def toDocument (s : CacheSettings) : Document :=
  .fields [("auto_flush", .bool s.autoFlush), ("eviction", s.eviction.toDocument),
    ("eviction_interval", s.evictionInterval.toDocument)]

end CacheSettings

namespace ShardSettings

def ofDocument? (d : Document) : Option ShardSettings := do
  let d ← d.record? ["splits", "delimiter"]
  return { shards := ← (← d.field? "splits").asUInt64?, delimiter := ← (← d.field? "delimiter").asText? }

def toDocument (s : ShardSettings) : Document :=
  .fields [("splits", .ofNat s.shards.toNat), ("delimiter", .text s.delimiter)]

end ShardSettings

namespace Consistency

/-- the name of a level -/
def name : Consistency → String
  | .one => "One"
  | .quorum => "Quorum"
  | .localQuorum => "LocalQuorum"
  | .all => "All"

def ofDocument? (d : Document) : Option Consistency :=
  d.unitChoice? ([.one, .quorum, .localQuorum, .all].map fun c => (c.name, c))

def toDocument (c : Consistency) : Document := .text c.name

end Consistency

namespace WideSettings

def ofDocument? (d : Document) : Option WideSettings := do
  let d ← d.record? ["prefix", "col_size", "consistency"]
  return {
    space := ← (← d.field? "prefix").asText?
    width := ← (← d.field? "col_size").asNatBelow? UInt64.size
    consistency := ← Consistency.ofDocument? (← d.field? "consistency") }

def toDocument (s : WideSettings) : Document :=
  .fields [("prefix", .text s.space), ("col_size", .ofNat s.width), ("consistency", s.consistency.toDocument)]

end WideSettings

namespace LockSettings

/-- an expiry: null means none -/
def expiryOfDocument? : Document → Option (Option Duration)
  | .null => some none
  | d => some <$> Duration.ofDocument? d

def ofDocument? (d : Document) : Option LockSettings := do
  let d ← d.record? ["settle_interval", "trying_expiry"]
  return {
    settleInterval := ← Duration.ofDocument? (← d.field? "settle_interval")
    tryingExpiry := ← expiryOfDocument? ((d.field? "trying_expiry").getD .null) }

def toDocument (s : LockSettings) : Document :=
  .fields [("settle_interval", s.settleInterval.toDocument),
    ("trying_expiry", (s.tryingExpiry.map Duration.toDocument).getD .null)]

end LockSettings

namespace DirectorySettings

def ofDocument? (d : Document) : Option DirectorySettings := do
  let d ← d.record? ["fast_copy", "lock"]
  return {
    fastCopy := ← (← d.field? "fast_copy").asBool?
    lock := ← LockSettings.ofDocument? (← d.field? "lock") }

def toDocument (s : DirectorySettings) : Document :=
  .fields [("fast_copy", .bool s.fastCopy), ("lock", s.lock.toDocument)]

end DirectorySettings

end RowFiles
