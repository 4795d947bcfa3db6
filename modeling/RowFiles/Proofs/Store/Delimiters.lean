/-
Delimiters that keep the rows of a sharded store apart.

A physical name is a key, the delimiter and the number of a shard, one right after the other, so a delimiter of digits can
be taken for a part of the number, and a part of the number for the delimiter. Settings are accepted with any delimiter
that is not empty.

- `keepsApart_iff`: exactly if the delimiter does not recur before the number of any shard, names tell rows and shards
  apart, each physical row is listed under its own row, and deleting a row spares all others. So it is with every delimiter
  that has some character other than a digit.
- `digits_merge_rows`: settings that are accepted, and two rows of which one is deleted with the other.
-/
import RowFiles.Proofs.Store.Shards

namespace RowFiles

open Run

namespace ShardSettings

/-- a table spread over shards -/
def overTable (s : ShardSettings) (width : Nat) : Rows (Run (Table Column)) := Sharded.rows s (Table.plainRows width)

/-- each physical row belongs to one row -/
structure KeepsApart (s : ShardSettings) : Prop where
  /-- shards of different rows, and different shards of one row, have different names -/
  distinct : ∀ k l i j, i < s.shards.toNat → j < s.shards.toNat → s.shardRow k i = s.shardRow l j → k = l ∧ i = j
  /-- the name of a shard is listed under its row -/
  told : ∀ k i, i < s.shards.toNat → s.rowOf (s.shardRow k i) = k
  /-- deleting a row succeeds, and every cell of another row is read as before -/
  spared : ∀ width k t, ∃ u, (s.overTable width).delete k t = (.ok (), u) ∧
    ∀ l col, l ≠ k → ((s.overTable width).get l col u).1 = ((s.overTable width).get l col t).1

variable {s : ShardSettings}

theorem delete_spares (apart : ∀ i < s.shards.toNat, ¬ s.Recurs i) (width : Nat) (k : Key) (t : Table Column) :
    ∃ u, (s.overTable width).delete k t = (.ok (), u) ∧
      ∀ l col, l ≠ k → ((s.overTable width).get l col u).1 = ((s.overTable width).get l col t).1 := by
  have serves : (Table.plainRows width).Serves Eq List.Perm never :=
    Table.plainRows_serve.scan_mono fun _ _ e => .of_eq e
  obtain ⟨_, u, _, ran, rfl, cells⟩ := (Sharded.forShards_delete (s := s) serves k s.shards.toNat 0 t).run rfl
  refine ⟨u, ran, fun l col other => congrArg Except.ok ?_⟩
  by_cases positive : s.shards = 0
  · -- without shards nothing is deleted
    exact (cells _ col).trans (if_neg (by simp [positive]))
  · refine (cells _ col).trans (if_neg fun own => ?_)
    rw [← List.range_eq_range', List.mem_map] at own
    obtain ⟨i, hi, same⟩ := own
    exact other (eq_of_shardRow_eq (apart _ (shardOf_lt positive col)) (apart i (List.mem_range.1 hi)) same.symm).1

theorem KeepsApart.of_not_recurs (apart : ∀ i < s.shards.toNat, ¬ s.Recurs i) : s.KeepsApart where
  distinct _ _ i j hi hj := eq_of_shardRow_eq (apart i hi) (apart j hj)
  told k i hi := (rowOf_shardRow_iff k i).2 (apart i hi)
  spared := delete_spares apart

/-- **Rows are kept apart** exactly if the delimiter does not recur before the number of any shard. It does not if some
character of it is no digit. -/
theorem keepsApart_iff (s : ShardSettings) :
    (s.KeepsApart ↔ ∀ i < s.shards.toNat, ¬ s.Recurs i) ∧
      ((∃ c ∈ s.delimiter.toList, c.isDigit = false) → s.KeepsApart) := by
  refine ⟨⟨fun apart i hi => ?_, .of_not_recurs⟩, fun mark => .of_not_recurs fun i _ => not_recurs mark i⟩
  exact (rowOf_shardRow_iff "" i).1 (apart.told "" i hi)

/-- digits may do: with ten shards, the delimiter `12` never recurs. A delimiter that begins with a digit does for any number
of shards. -/
theorem keepsApart_iff_digits :
    let few : ShardSettings := { shards := 10, delimiter := "12" }
    let many : ShardSettings := { shards := 1000000, delimiter := "12#" }
    few.KeepsApart ∧ (∃ c ∈ many.delimiter.toList, c.isDigit = false) ∧ many.KeepsApart := by
  intro few many
  have mark : ∃ c ∈ many.delimiter.toList, c.isDigit = false := ⟨'#', by decide, by decide⟩
  exact ⟨(keepsApart_iff few).1.2 (by decide), mark, (keepsApart_iff many).2 mark⟩

/-- with the delimiter `1`, shard 11 of the row `a` is shard 1 of the row `a1`: it is listed under neither, and deleting `a`
deletes the cell of `a1` -/
theorem digits_merge_rows :
    let s : ShardSettings := { shards := 12, delimiter := "1" }
    let rows := s.overTable 4
    s.validate = .ok () ∧ s.shardRow "a" 11 = s.shardRow "a1" 1 ∧ s.rowOf (s.shardRow "a" 11) = "a11" ∧
      ((do rows.put "a1" 1 [7]; rows.delete "a"; rows.get "a1" 1) .empty).1 = .ok none ∧ ¬ s.KeepsApart := by
  intro s rows
  refine ⟨by decide, by decide, by decide, by decide +kernel, fun apart => ?_⟩
  exact absurd (apart.told "a" 11 (by decide)) (by decide)

end ShardSettings

end RowFiles
