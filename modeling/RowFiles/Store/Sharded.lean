/-
Spreads the columns of a row over several physical rows: column `c` of row `k` lives in the row named
`k ++ delimiter ++ (c mod shards)`, in decimal. Row calls go to every shard, in ascending order, and stop at the first
failure; the names of rows come back by cutting each physical name at its last delimiter.
-/
import RowFiles.Settings
import RowFiles.Store

namespace RowFiles

/-- the text before the last occurrence of `d`, which may overlap others -/
def beforeLast (d : List Char) : List Char → Option (List Char)
  | [] => if d = [] then some [] else none
  | c :: cs =>
    match beforeLast d cs with
    | some before => some (c :: before)
    | none => if d.isPrefixOf (c :: cs) then some [] else none

namespace ShardSettings

variable (s : ShardSettings)

/-- the physical row of one shard of a row -/
def shardRow (key : Key) (shard : Nat) : Key := key ++ s.delimiter ++ toString shard

/-- which shard a column belongs to -/
def shardOf (c : Column) : Nat := c.toNat % s.shards.toNat

/-- the physical row that holds a column of a row -/
def shardKey (key : Key) (c : Column) : Key := s.shardRow key (s.shardOf c)

/-- the row that a physical row belongs to; a name with no delimiter stands for itself -/
def rowOf (physical : Key) : Key :=
  match beforeLast s.delimiter.toList physical.toList with
  | some before => String.ofList before
  | none => physical

end ShardSettings

namespace Sharded

variable {m : Type → Type} [Monad m]

/-- makes a call for `n` shards from shard `i` on -/
def forShards (f : Nat → m Unit) (i : Nat) : Nat → m Unit
  | 0 => pure ()
  | n + 1 => do f i; forShards f (i + 1) n

/-- asks `n` shards from shard `i` on until one says yes -/
def anyShard (f : Nat → m Bool) (i : Nat) : Nat → m Bool
  | 0 => pure false
  | n + 1 => do if ← f i then pure true else anyShard f (i + 1) n

/-- collects from `n` shards from shard `i` on, after what was collected before -/
def gather {α : Type} (f : Nat → m (List α)) (i : Nat) (acc : List α) : Nat → m (List α)
  | 0 => pure acc
  | n + 1 => do gather f (i + 1) (acc ++ (← f i)) n

def rows (s : ShardSettings) (inner : Rows m) : Rows m where
  width := inner.width
  put k c v := inner.put (s.shardKey k c) c v
  get k c := inner.get (s.shardKey k c) c
  delete k := forShards (fun i => inner.delete (s.shardRow k i)) 0 s.shards.toNat
  deleteColumn k c := inner.deleteColumn (s.shardKey k c) c
  hasKey k := anyShard (fun i => inner.hasKey (s.shardRow k i)) 0 s.shards.toNat
  values k := gather (fun i => inner.values (s.shardRow k i)) 0 [] s.shards.toNat
  keys := (fun names => (names.map s.rowOf).eraseDups) <$> inner.keys
  sync := inner.sync

/-- sharding hides the abilities of the store beneath it -/
def store (s : ShardSettings) (inner : Store m) : Store m := { rows s inner.toRows with }

end Sharded

end RowFiles
