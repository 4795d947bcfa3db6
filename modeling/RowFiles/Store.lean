/-
The contract of a store: rows addressed by a key, each a sparse map from 64-bit column numbers to cells.

A store is a record of calls in a monad `m`, so one text of every layer, file and lock serves each way of running it:
as a plain `Run`, or stopping at every call so that several runs can be interleaved.

`Store` adds two abilities to the calls: a `Linker`, where keys are links to other keys, and `uncached`, the rows
beneath all write-back buffering.
-/
import RowFiles.Run

namespace RowFiles

/-- the name of a row -/
abbrev Key := String

/-- the number of a column; a file's column `n` holds its bytes from `n * width` on -/
abbrev Column := UInt64

/-! ## Calls -/

/-- the calls that every store answers -/
structure Rows (m : Type → Type) where
  /-- bytes per column -/
  width : Nat
  /-- sets a cell, replacing any earlier one -/
  put : Key → Column → Bytes → m Unit
  /-- a cell; a cell never written is absent, which is not the same as zeros -/
  get : Key → Column → m (Option Bytes)
  /-- removes a row -/
  delete : Key → m Unit
  /-- removes a cell -/
  deleteColumn : Key → Column → m Unit
  /-- whether a row has a cell -/
  hasKey : Key → m Bool
  /-- every cell of a row, in the store's own order -/
  values : Key → m (List Bytes)
  /-- every row that has a cell -/
  keys : m (List Key)
  /-- writes out what is buffered -/
  sync : m Unit

/-- keys as links to physical keys -/
structure Linker (m : Type → Type) where
  /-- the physical key behind a key, made on first use -/
  resolve : Key → m Key
  /-- points a key at a physical key, replacing any earlier link -/
  link : Key → Key → m Unit
  /-- drops the link of a key and leaves the physical row alone -/
  unlink : Key → m Unit

structure Store (m : Type → Type) extends Rows m where
  linker : Option (Linker m) := none
  /-- the rows beneath any write-back buffering; absent if nothing is buffered -/
  uncached : Option (Rows m) := none

/-- the rows on which every call is seen by all who share the store -/
def Store.shared {m : Type → Type} (s : Store m) : Rows m := s.uncached.getD s.toRows

/-- the calls of a store, made from within another monad -/
def Rows.lift {m n : Type → Type} [MonadLiftT m n] (r : Rows m) : Rows n where
  width := r.width
  put k c v := liftM (r.put k c v)
  get k c := liftM (r.get k c)
  delete k := liftM (r.delete k)
  deleteColumn k c := liftM (r.deleteColumn k c)
  hasKey k := liftM (r.hasKey k)
  values k := liftM (r.values k)
  keys := liftM r.keys
  sync := liftM r.sync

/-! ## Calls as data -/

inductive Call where
  | put (key : Key) (column : Column) (value : Bytes)
  | get (key : Key) (column : Column)
  | delete (key : Key)
  | deleteColumn (key : Key) (column : Column)
  | hasKey (key : Key)
  | values (key : Key)
  | keys
  | sync
deriving DecidableEq, Repr

inductive Answer where
  | done
  | cell (value : Option Bytes)
  | flag (yes : Bool)
  | values (cells : List Bytes)
  | keys (names : List Key)
deriving DecidableEq, Repr

def Rows.call {m : Type → Type} [Monad m] (r : Rows m) : Call → m Answer
  | .put k c v => do r.put k c v; pure .done
  | .get k c => .cell <$> r.get k c
  | .delete k => do r.delete k; pure .done
  | .deleteColumn k c => do r.deleteColumn k c; pure .done
  | .hasKey k => .flag <$> r.hasKey k
  | .values k => .values <$> r.values k
  | .keys => .keys <$> r.keys
  | .sync => do r.sync; pure .done

end RowFiles
