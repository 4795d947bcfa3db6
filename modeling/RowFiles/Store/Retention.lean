/-
Which clean cells a cache may drop. Under an age policy each tracked access (a read that gave a value, or a write)
records its time; a cell with no recorded access may go at once, any other when its latest access has reached the age.
-/
import RowFiles.Settings
import RowFiles.Store.Table

namespace RowFiles

/-- the times of the latest tracked accesses -/
abbrev AccessTimes := Std.ExtTreeMap (Address Column) UInt64 compare

namespace Eviction

/-- after a read of a cell -/
def noteGet (e : Eviction) (now : UInt64) (a : Address Column) (times : AccessTimes) : AccessTimes :=
  match e with
  | .lastRead _ => times.insert a now
  | _ => times

/-- after a write of a cell -/
def notePut (e : Eviction) (now : UInt64) (a : Address Column) (times : AccessTimes) : AccessTimes :=
  match e with
  | .lastWrite _ => times.insert a now
  | _ => times

/-- whether the latest access is at least the age ago -/
def expired (age : Duration) (now : UInt64) (a : Address Column) (times : AccessTimes) : Bool :=
  match times[a]? with
  | some last => age.age ≤ elapsed now last
  | none => true

def shouldEvict (e : Eviction) (now : UInt64) (a : Address Column) (times : AccessTimes) : Bool :=
  match e with
  | .never => false
  | .always => true
  | .lastRead age => expired age now a times
  | .lastWrite age => expired age now a times

end Eviction

end RowFiles
