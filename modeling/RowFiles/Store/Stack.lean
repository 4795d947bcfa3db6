/-
Stacks of layers. A `Stack` is the shape of a composed store: which layers lie over which, and where in the state each
layer keeps what it remembers. A `Backing` supplies the parts of the state and what the layers ask of their host: the
time, fresh keys, and an order for what is written in bulk. `Stack.store` puts the two together.
-/
import RowFiles.Store.Cached
import RowFiles.Store.Linked
import RowFiles.Store.Probe
import RowFiles.Store.Sharded
import RowFiles.Store.Wide

namespace RowFiles

inductive Stack where
  /-- a table in memory -/
  | memory (table width : Nat)
  /-- a space of a shared table -/
  | wide (known session : Nat) (settings : WideSettings)
  | sharded (settings : ShardSettings) (inner : Stack)
  | linked (links inner : Stack)
  | cached (cache : Nat) (settings : CacheSettings) (inner : Stack)
  | probed (probe : Nat) (inner : Stack)
deriving DecidableEq, Repr

/-- what stacks need to run in `m`; `σ` is what the rivals of a probe run -/
structure Backing (m : Type → Type) (σ : Type) where
  table : Nat → Part m (Table Column)
  session : Nat → Part m SessionTable
  known : Nat → Part m KnownRows
  cache : Nat → Part m CacheState
  probe : Nat → Part m (ProbeState σ)
  rivals : σ → m Unit
  now : m UInt64
  freshKey : Nat → m Key
  order : List (Address Column) → m (List (Address Column))
  orderKeys : List Key → m (List Key)

namespace Backing

variable {m : Type → Type} {σ : Type} (b : Backing m σ)

/-- the cache in a slot, over an inner store -/
def cacheOver (slot : Nat) (settings : CacheSettings) (inner : Rows m) : Cache m :=
  ⟨inner, settings, b.cache slot, b.now, b.order⟩

def linksIn (links : Rows m) : LinkTable m := ⟨links, b.freshKey⟩

def probeIn (slot : Nat) : Probe m σ := ⟨b.probe slot, b.rivals⟩

def wideIn [Monad m] [MonadExceptOf Error m] (known session : Nat) (settings : WideSettings) : Wide m :=
  ⟨SessionTable.session (b.session session), settings, b.known known⟩

end Backing

namespace Stack

variable {m : Type → Type} [Monad m] [MonadExceptOf Error m] {σ : Type}

def store (b : Backing m σ) : Stack → Store m
  | .memory table width => Table.store (b.table table) width
  | .wide known session settings => (b.wideIn known session settings).store
  | .sharded settings inner => Sharded.store settings (inner.store b)
  | .linked links inner => (b.linksIn (links.store b).toRows).store (inner.store b)
  | .cached slot settings inner => (b.cacheOver slot settings (inner.store b).toRows).store (inner.store b)
  | .probed slot inner => (b.probeIn slot).store (inner.store b)

/-- the shape of the store beneath all write-back buffering, if there is buffering to get beneath -/
def uncached? : Stack → Option Stack
  | .cached _ _ inner => some (inner.uncached?.getD inner)
  | .probed _ inner => inner.uncached?
  | _ => none

end Stack

end RowFiles
