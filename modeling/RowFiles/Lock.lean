/-
Advisory locks made of plain reads and writes. The lock named `n` lives in row `n`. Column 0 is the state cell: a state
byte and the time it was written. Every contender puts its signature, a number above zero, into the column of that
number; then the largest signature in the row wins.

The winner's bid becomes sixteen bytes (signature, time of winning), so the row shows an owner even after a late
bidder has overwritten the state cell; a bidder that finds an owned bid withdraws and puts the state back.

A bidding round older than the expiry, with no owned bid, is abandoned: its bids are removed and the lock is bid for
again. A lock that is held never expires.

An attempt has three phases, `canBid`, `register` and `resolve`, with time for rivals to settle before the last.
-/
import RowFiles.Duration
import RowFiles.Files.Catalog

namespace RowFiles

/-! ## Cells -/

inductive LockState where
  | unlocked | trying | locked
deriving DecidableEq, Repr

namespace LockState

def toByte : LockState → UInt8
  | .unlocked => 0
  | .trying => 1
  | .locked => 2

/-- any byte above one reads as held -/
def ofByte (b : UInt8) : LockState := if b = 0 then .unlocked else if b = 1 then .trying else .locked

/-- the state cell: the state, then the time of writing -/
def cell (s : LockState) (time : UInt64) : Bytes := s.toByte :: Bytes.ofUInt64 time

/-- the time in a state cell; a cell too short for one was written at time zero -/
def writtenAt (cell : Bytes) : UInt64 := if 9 ≤ cell.length then Bytes.toUInt64 (cell.drop 1) else 0

end LockState

/-- a signature found in a lock row -/
structure Bid where
  signature : UInt64
  owned : Bool
deriving DecidableEq, Repr

namespace Bid

/-- an eight-byte cell is a bid and a sixteen-byte one the owner's; cells of any other length are none -/
def ofCell? (cell : Bytes) : Option Bid :=
  if cell.length = 8 then some ⟨Bytes.toUInt64 cell, false⟩
  else if cell.length = 16 then some ⟨Bytes.toUInt64 cell, true⟩
  else none

/-- the cell of a bid that is made -/
def openCell (signature : UInt64) : Bytes := Bytes.ofUInt64 signature

/-- the cell of a bid that has won at a time -/
def ownedCell (signature time : UInt64) : Bytes := Bytes.ofUInt64 signature ++ Bytes.ofUInt64 time

/-- the largest signature among bids -/
def highest : List Bid → Option UInt64
  | [] => none
  | b :: bids =>
    match highest bids with
    | none => some b.signature
    | some s => some (max b.signature s)

end Bid

/-! ## Handles -/

/-- a contender's handle on a lock -/
structure Lock (m : Type → Type) where
  name : Key
  /-- the rows that every contender sees -/
  rows : Rows m
  catalog : Catalog m
  expiry : Option Duration
  now : m UInt64
  signature : UInt64
  /-- whether this handle has won the lock and not closed it -/
  owned : Part m Bool

namespace Lock

/-- zero is the state cell's column, so a signature of zero becomes one -/
def effective (signature : UInt64) : UInt64 := max signature 1

def stateColumn : Column := 0

/-- a handle on a lock in a store, whose cells lie beneath any buffering -/
def ofStore {m : Type → Type} (store : Store m) (catalog : Catalog m) (expiry : Option Duration) (now : m UInt64)
    (name : Key) (signature : UInt64) (owned : Part m Bool) : Lock m :=
  ⟨name, store.shared, catalog, expiry, now, effective signature, owned⟩

variable {m : Type → Type} [Monad m] [MonadExceptOf Error m] (l : Lock m)

def bids : m (List Bid) := (·.filterMap Bid.ofCell?) <$> l.rows.values l.name

def writeState (s : LockState) : m Unit := do
  l.rows.put l.name stateColumn (s.cell (← l.now))

/-- removes bids from the row -/
def removeBids : List Bid → m Unit
  | [] => pure ()
  | b :: bids => do
    l.rows.deleteColumn l.name b.signature
    removeBids bids

/-- ends an expired round. If some bid is owned, a late bidder has overwritten a held state, which is put back;
otherwise every bid is removed. -/
def clearStaleBids : m Bool := do
  let bids ← l.bids
  if bids.any Bid.owned then
    l.writeState .locked
    return false
  l.removeBids bids
  return true

/-- whether the lock looks free; an expired round is cleared on the way -/
def canBid : m Bool := do
  match ← l.rows.get l.name stateColumn with
  | none | some [] => return true
  | some (byte :: rest) =>
    match LockState.ofByte byte with
    | .unlocked => return true
    | .locked => return false
    | .trying =>
      match l.expiry with
      | none => return false
      | some expiry =>
        let age := elapsed (← l.now) (LockState.writtenAt (byte :: rest))
        if age < expiry.age then return false
        l.clearStaleBids

/-- enters the round with a bid -/
def register : m Unit := do
  l.writeState .trying
  l.rows.put l.name l.signature (Bid.openCell l.signature)

/-- ends the round for this handle: a rival's owned bid or a larger bid beats it, otherwise it wins -/
def resolve : m Bool := do
  let bids ← l.bids
  if bids.any fun b => b.owned && b.signature ≠ l.signature then
    l.rows.deleteColumn l.name l.signature
    l.writeState .locked
    return false
  if Bid.highest bids ≠ some l.signature then
    l.rows.deleteColumn l.name l.signature
    return false
  l.rows.put l.name l.signature (Bid.ownedCell l.signature (← l.now))
  l.writeState .locked
  l.catalog.setLength l.name 1 true
  l.owned.write true
  return true

/-- tries once to take the lock, with something done before the bid is entered and something before the round is ended -/
def obtainWhile (bidding settling : m Unit) : m Bool := do
  if ← l.owned.read then return true
  if !(← l.canBid) then return false
  bidding
  l.register
  settling
  l.resolve

/-- tries once to take the lock -/
def obtain : m Bool := l.obtainWhile (pure ()) (pure ())

/-- takes back this handle's bid and, if it owns the lock, the lock itself -/
def close : m Unit := do
  l.rows.deleteColumn l.name l.signature
  if ← l.owned.read then
    l.rows.deleteColumn l.name stateColumn
    l.catalog.delete l.name
    l.owned.write false

/-- whether the state cell reads as anything but unlocked -/
def isLocked : m Bool := do
  match ← l.rows.get l.name stateColumn with
  | none | some [] => return false
  | some (byte :: _) => return LockState.ofByte byte ≠ .unlocked

end Lock

end RowFiles
