/-
A probe: a store that passes every call on, counts it, and lets rules step in first. The first rule that matches a call
decides: it may let rivals act on the shared state before the call goes on, and it may make the call fail without
passing it on. A rule can be spent after a number of uses, and can let its first matches go by.
-/
import RowFiles.Store

namespace RowFiles

/-- which call of a store is made -/
inductive CallName where
  | put | get | delete | deleteColumn | hasKey | values | keys | sync
deriving DecidableEq, Repr

namespace Call

def name : Call → CallName
  | .put .. => .put
  | .get .. => .get
  | .delete .. => .delete
  | .deleteColumn .. => .deleteColumn
  | .hasKey .. => .hasKey
  | .values .. => .values
  | .keys => .keys
  | .sync => .sync

/-- the row a call is about -/
def key? : Call → Option Key
  | .put k _ _ | .get k _ | .delete k | .deleteColumn k _ | .hasKey k | .values k => some k
  | .keys | .sync => none

/-- the column a call is about -/
def column? : Call → Option Column
  | .put _ c _ | .get _ c | .deleteColumn _ c => some c
  | _ => none

/-- how many bytes a call writes -/
def bytes : Call → Nat
  | .put _ _ v => v.length
  | _ => 0

end Call

/-- when and how to step in; `σ` is what rivals run -/
structure Rule (σ : Type) where
  /-- the call, or any call -/
  call : Option CallName := none
  key : Option Key := none
  column : Option Column := none
  /-- matches still to let by -/
  skip : Nat := 0
  /-- uses left; no limit, if absent -/
  times : Option Nat := none
  rivals : Option σ := none
  fail : Option Error := none

def Rule.applies {σ : Type} (r : Rule σ) (c : Call) : Bool :=
  r.times ≠ some 0 && (r.call.all fun n => n = c.name) && (r.key.all fun k => c.key? = some k) &&
    (r.column.all fun n => c.column? = some n)

/-- the rule that decides a call, with the rules as they stand afterwards -/
def Rule.pick {σ : Type} (c : Call) : List (Rule σ) → Option (Rule σ) × List (Rule σ)
  | [] => (none, [])
  | r :: rs =>
    if !r.applies c then
      let (found, rs) := pick c rs
      (found, r :: rs)
    else if 0 < r.skip then
      let (found, rs) := pick c rs
      (found, { r with skip := r.skip - 1 } :: rs)
    else (some r, { r with times := r.times.map (· - 1) } :: rs)

structure ProbeState (σ : Type) where
  /-- calls made, latest first -/
  calls : List CallName := []
  /-- bytes handed over in puts -/
  bytes : Nat := 0
  rules : List (Rule σ) := []

structure Probe (m : Type → Type) (σ : Type) where
  state : Part m (ProbeState σ)
  /-- lets rivals act -/
  rivals : σ → m Unit

namespace Probe

variable {m : Type → Type} [Monad m] [MonadExceptOf Error m] {σ : Type} (p : Probe m σ)

/-- counts a call and lets the first rule that matches it step in -/
def before (c : Call) : m Unit := do
  let s ← p.state.read
  let (found, rules) := Rule.pick c s.rules
  p.state.write { calls := c.name :: s.calls, bytes := s.bytes + c.bytes, rules := rules }
  if let some r := found then
    if let some script := r.rivals then p.rivals script
    if let some e := r.fail then throw e

def rows (inner : Rows m) : Rows m where
  width := inner.width
  put k c v := do p.before (.put k c v); inner.put k c v
  get k c := do p.before (.get k c); inner.get k c
  delete k := do p.before (.delete k); inner.delete k
  deleteColumn k c := do p.before (.deleteColumn k c); inner.deleteColumn k c
  hasKey k := do p.before (.hasKey k); inner.hasKey k
  values k := do p.before (.values k); inner.values k
  keys := do p.before .keys; inner.keys
  sync := do p.before .sync; inner.sync

/-- a probe has the abilities of the store beneath it, and does not see what is done through them -/
def store (inner : Store m) : Store m :=
  { p.rows inner.toRows with linker := inner.linker, uncached := inner.uncached }

end Probe

end RowFiles
