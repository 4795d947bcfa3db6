/-
What can be chosen about a cache, a sharded store, a wide-column store, a lock and a directory, with the defaults.
-/
import RowFiles.Duration
import RowFiles.Error

namespace RowFiles

/-- which cached entries with nothing left to write may be dropped -/
inductive Eviction where
  /-- none, until the cache is emptied -/
  | never
  /-- all of them on every pass -/
  | always
  /-- those not read within the age -/
  | lastRead (age : Duration)
  /-- those not written within the age -/
  | lastWrite (age : Duration)
deriving DecidableEq, Repr

structure CacheSettings where
  /-- write every put through at once -/
  autoFlush : Bool := false
  eviction : Eviction := .never
  /-- how often evictions are run -/
  evictionInterval : Duration := .ofSeconds 10
deriving DecidableEq, Repr

structure ShardSettings where
  /-- how many physical rows one row is spread over -/
  shards : UInt64 := 20
  /-- stands between a key and its shard number -/
  delimiter : String := "/"
deriving DecidableEq, Repr

/-- shard counts must be positive and delimiters non-empty; the count is looked at first -/
def ShardSettings.validate (s : ShardSettings) : Except Error Unit :=
  if s.shards = 0 then .error (.setting .zeroShards)
  else if s.delimiter.isEmpty then .error (.setting .emptyDelimiter)
  else .ok ()

/-- how many replicas must answer a statement -/
inductive Consistency where
  | one | quorum | localQuorum | all
deriving DecidableEq, Repr

structure WideSettings where
  /-- put before every key, so that several stores can share a table -/
  space : String := "colfs"
  width : Nat := 8192
  consistency : Consistency := .one
deriving DecidableEq, Repr

structure LockSettings where
  /-- how long a bidder waits for rival bids -/
  settleInterval : Duration := .ofSeconds 1
  /-- the age at which a bidding round counts as abandoned; never, if absent -/
  tryingExpiry : Option Duration := some (.ofSeconds 30)
deriving DecidableEq, Repr

structure DirectorySettings where
  /-- copies between linked stores may move the link -/
  fastCopy : Bool := true
  lock : LockSettings := {}
deriving DecidableEq, Repr

end RowFiles
