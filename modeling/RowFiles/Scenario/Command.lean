/-
The steps of a scenario: make an object under a name, or do something with objects made before. Keys and texts are as
written, with placeholders for generated keys still in them.
-/
import RowFiles.Schedule
import RowFiles.Store.Probe
import RowFiles.Store.Wide
import RowFiles.Files.Reader

namespace RowFiles.Scenario

/-- the name of an object -/
abbrev Name := String

/-- bytes as a step gives them -/
inductive Payload where
  | bytes (b : Bytes)
  | text (s : String)

/-- what can be made -/
inductive Making where
  | memory (width : Nat)
  | sharded (inner : Name) (settings : ShardSettings)
  | cached (inner : Name) (settings : CacheSettings)
  | linked (links inner : Name)
  | session (narrow : Bool)
  | wide (session : Name) (settings : WideSettings)
  /-- a store like another, in a space of its own -/
  | wideLike (other : Name) (space : String)
  | probe (inner : Name)
  | policy (eviction : Eviction)
  | catalog (store : Name)
  | writer (store catalog : Name) (key : String)
  | fileWriter (directory : Name) (key : String)
  | reader (store : Name) (key : String) (length : UInt64)
  | fileReader (directory : Name) (key : String)
  | lock (store catalog : Name) (key : String) (signature : UInt64) (expiry : Option Duration)
  | fileLock (directory : Name) (key : String)
  | directory (data catalog : Name) (settings : DirectorySettings)
  | scheduler
  | ticks (interval : Duration) (takes : Lengths) (crashesIn : Option Nat) (fails : Bool)

inductive StoreStep where
  | put (key : String) (column : Column) (value : Payload)
  | get (key : String) (column : Column)
  | delete (key : String)
  | deleteColumn (key : String) (column : Column)
  | hasKey (key : String)
  | values (key : String)
  | keys
  | width
  | sync
  | abilities
  | resolve (key : String)
  | link (key physical : String)
  | unlink (key : String)
  /-- the physical row of a column, of a sharded store -/
  | shardKey (key : String) (column : Column)
  /-- the space of a store in a shared table -/
  | space

inductive MemoryStep where
  | size
  | columns (key : String)

inductive CacheStep where
  | flush (empty : Bool)
  | evict
  | size
  | isCached (key : String) (column : Column)
  | isMarked (key : String) (column : Column)
  | cell (key : String) (column : Column)
  | settings
  | runTask

inductive SessionStep where
  | down (reason : Option String)
  | stats
  | put (key : String) (column : Int64) (value : Payload)
  | deleteRow (key : String)

inductive PolicyStep where
  | noteGet (key : String) (column : Column)
  | notePut (key : String) (column : Column)
  | shouldEvict (key : String) (column : Column)
  | remove (key : String) (column : Column)

inductive ClockStep where
  | set (time : UInt64)
  | advance (millis : UInt64)
  | now

inductive CatalogStep where
  | length (key : String)
  | has (key : String)
  | delete (key : String)
  | setLength (key : String) (length : UInt64) (commit : Bool)
  | flush (clear : Bool)
  | keys

inductive WriterStep where
  | write (value : Payload)
  | writeByte (byte : UInt8)
  | flush
  | streamWrite (value : Payload)
  | streamFlush
  | state
  | close

inductive ReaderStep where
  | byte (offset : UInt64)
  | bytes (offset : UInt64) (len : Nat)
  | read (len : Nat)
  | readExact (len : Nat)
  | readToEnd
  | seek (target : SeekFrom)
  | state

inductive LockStep where
  | obtain
  | close
  | isLocked
  | isOwner
  | name
  | signature

inductive DirectoryStep where
  | list
  | sync
  | settings
  | has (key : String)
  | length (key : String)
  | delete (key : String)
  | clearLock (key : String)
  | copy (key : String) (dest : Name) (destKey : String)
  | write (key : String) (value : Payload)
  | read (key : String)

inductive SchedulerStep where
  | register (task : Name)
  | shutdown

inductive Command where
  | make (id : Name) (what : Making)
  /-- on the store itself, or on the store beneath its buffering -/
  | store (id : Name) (uncached : Bool) (step : StoreStep)
  | memory (id : Name) (step : MemoryStep)
  | cache (id : Name) (step : CacheStep)
  | session (id : Name) (step : SessionStep)
  | addRule (id : Name) (rule : Rule (List Command))
  | counts (id : Name)
  | resetCounts (id : Name)
  | clearRules (id : Name)
  | policy (id : Name) (step : PolicyStep)
  | clock (step : ClockStep)
  | catalog (id : Name) (step : CatalogStep)
  | writer (id : Name) (step : WriterStep)
  | reader (id : Name) (step : ReaderStep)
  | lock (id : Name) (step : LockStep)
  | directory (id : Name) (step : DirectoryStep)
  | scheduler (id : Name) (step : SchedulerStep)
  | sleep (millis : UInt64)
  | dump (id : Name)
  /-- a step that means nothing -/
  | malformed

end RowFiles.Scenario
