/-
Lengths of time: whole seconds below 2^64 and a rest in nanoseconds.
-/

namespace RowFiles

structure Duration where
  seconds : UInt64
  nanos : Fin 1000000000
deriving DecidableEq, Repr

namespace Duration

def ofSeconds (n : UInt64) : Duration := ⟨n, 0⟩

def ofMillis (n : UInt64) : Duration :=
  ⟨n / 1000, ⟨n.toNat % 1000 * 1000000, by omega⟩⟩

/-- seconds and any count of nanoseconds, whose whole seconds are carried; refused if the seconds outgrow 64 bits -/
def ofParts? (seconds nanos : Nat) : Option Duration :=
  let carried := seconds + nanos / 1000000000
  if carried < UInt64.size then some ⟨UInt64.ofNat carried, ⟨nanos % 1000000000, by omega⟩⟩ else none

/-- whole milliseconds, rounded down -/
def millis (d : Duration) : Nat := d.seconds.toNat * 1000 + d.nanos.val / 1000000

def nanoseconds (d : Duration) : Nat := d.seconds.toNat * 1000000000 + d.nanos.val

/-- whole milliseconds as a 64-bit age, of which the low 64 bits are kept -/
def age (d : Duration) : UInt64 := UInt64.ofNat d.millis

/-- the milliseconds that an age keeps of a duration -/
def kept (d : Duration) : Nat := d.millis % UInt64.size

theorem toNat_age (d : Duration) : d.age.toNat = d.kept := UInt64.toNat_ofNat'

theorem kept_of_small {d : Duration} (small : d.millis < UInt64.size) : d.kept = d.millis := Nat.mod_eq_of_lt small

end Duration

/-- the time since `written`, none if the clock has gone back behind it -/
def elapsed (now written : UInt64) : UInt64 := if written ≤ now then now - written else 0

/-- times that go backwards count as no time at all -/
theorem toNat_elapsed (now written : UInt64) : (elapsed now written).toNat = now.toNat - written.toNat := by
  by_cases before : written ≤ now
  · rw [elapsed, if_pos before]
    exact UInt64.toNat_sub_of_le now written before
  · rw [elapsed, if_neg before, UInt64.toNat_zero]
    rw [UInt64.le_iff_toNat_le] at before
    omega

/-- an age has passed just if as many milliseconds have as it keeps -/
theorem age_le_elapsed_iff_kept {now written : UInt64} {d : Duration} :
    d.age ≤ elapsed now written ↔ d.kept ≤ now.toNat - written.toNat := by
  rw [UInt64.le_iff_toNat_le, toNat_elapsed, d.toNat_age]

/-- an age that fits 64 bits has passed just if as many milliseconds have -/
theorem age_le_elapsed_iff {now written : UInt64} {d : Duration} (small : d.millis < UInt64.size) :
    d.age ≤ elapsed now written ↔ d.millis ≤ now.toNat - written.toNat := by
  rw [age_le_elapsed_iff_kept, d.kept_of_small small]

end RowFiles
