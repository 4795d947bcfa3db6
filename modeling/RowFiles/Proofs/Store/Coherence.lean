/-
Coherence of a write-back cache with the table beneath it. A cache and the table beneath stand for one plain table: the
one that has taken every put and delete at once. `Coherent` says how the three agree:
- `kept`: cells that are marked, or owed to the table beneath by a flush at work, are in the cache;
- `shadow`: a cell in the cache is the plain table's;
- `clean`: a cell neither marked nor owed is the same beneath as in the plain table.

Each small step of a cache keeps coherence, perhaps with a plain table that the step has changed.
-/
import RowFiles.Proofs.Store.Tables
import RowFiles.Store.Cached

namespace RowFiles

theorem Address.eq_iff {κ : Type} {a b : Address κ} : a = b ↔ a.key = b.key ∧ a.column = b.column := by
  cases a; cases b; simp

theorem Table.get_put_at (t : Table Column) (a b : Address Column) (v : Bytes) :
    (t.put a.key a.column v).get b.key b.column = if a = b then some v else t.get b.key b.column := by
  simp only [get_put, Address.eq_iff]

theorem Table.get_deleteColumn_at (t : Table Column) (a b : Address Column) :
    (t.deleteColumn a.key a.column).get b.key b.column = if a = b then none else t.get b.key b.column := by
  simp only [get_deleteColumn, Address.eq_iff]

/-- the plain table of a cache and the table beneath it; the cells in `owed` are about to be written beneath -/
structure Coherent (owed : List (Address Column)) (x : CacheState) (beneath plain : Table Column) : Prop where
  kept : ∀ a, a ∈ x.marks ∨ a ∈ owed → ∃ v, x.value? a = some v
  shadow : ∀ a v, x.value? a = some v → plain.get a.key a.column = some v
  clean : ∀ a, a ∉ x.marks → a ∉ owed → beneath.get a.key a.column = plain.get a.key a.column

/-! ## What the steps of a cache do to its cells -/

namespace CacheState

variable (x : CacheState)

theorem isMarked_iff (a : Address Column) : x.isMarked a = true ↔ a ∈ x.marks := by
  rw [isMarked, Std.ExtTreeSet.contains_iff_mem]

theorem value?_put (e : Eviction) (now : UInt64) (a b : Address Column) (v : Bytes) :
    (x.put e now a v).value? b = if a = b then some v else x.value? b := by
  simp only [put, value?, Table.get_put_at]

theorem mem_marks_put (e : Eviction) (now : UInt64) (a b : Address Column) (v : Bytes) :
    b ∈ (x.put e now a v).marks ↔ a = b ∨ b ∈ x.marks := by
  simp [put, Std.ExtTreeSet.mem_insert]

theorem value?_fill_of_ne {a b : Address Column} (v : Bytes) (other : a ≠ b) : (x.fill a v).value? b = x.value? b := by
  rw [fill]
  cases x.value? a with
  | some _ => rfl
  | none => rw [value?, Table.get_put_at, if_neg other, value?]

theorem value?_drop (out : Address Column → Bool) (a : Address Column) :
    (x.drop out).value? a = if out a then none else x.value? a := by
  simp only [drop, value?, Table.get, Std.ExtTreeMap.getElem?_filter']
  cases out a <;> cases x.table.cells[(⟨a.key, a.column⟩ : Address Column)]? <;> simp [Option.filter]

theorem value?_forgetCell (a b : Address Column) :
    (x.forgetCell a).value? b = if a = b then none else x.value? b := by
  simp only [forgetCell, value?, Table.get_deleteColumn_at]

theorem eq_of_isLastInRow {a : Address Column} (last : x.isLastInRow a = true) {c : Column} {v : Bytes}
    (found : x.value? ⟨a.key, c⟩ = some v) : c = a.column := by
  have there : c ∈ x.table.columns a.key := List.mem_map.2 ⟨(c, v), Table.mem_row.2 found, rfl⟩
  rw [of_decide_eq_true last] at there
  exact List.mem_singleton.1 there

theorem value?_forgetRow (k : Key) (a : Address Column) :
    (x.forgetRow k).value? a = if a.key = k then none else x.value? a := by
  have e : (x.forgetRow k).value? a = (x.drop fun b => b.key = k).value? a := rfl
  rw [e, x.value?_drop]
  simp

/-- what else is cached of a row does not depend on another row -/
theorem isLastInRow_forgetRow {k : Key} {a : Address Column} (other : a.key ≠ k) :
    (x.forgetRow k).isLastInRow a = x.isLastInRow a := by
  have row : (x.forgetRow k).table.row a.key = x.table.row a.key := Table.row_congr fun c => by
    have cell := x.value?_forgetRow k ⟨a.key, c⟩
    rw [if_neg other] at cell
    exact cell
  rw [isLastInRow, isLastInRow, Table.columns, Table.columns, row]

theorem mem_marks_unmarkRow (k : Key) (a : Address Column) : a ∈ (x.unmarkRow k).marks ↔ a ∈ x.marks ∧ a.key ≠ k := by
  simp [unmarkRow]

theorem mem_markedIn (k : Key) (a : Address Column) : a ∈ x.markedIn k ↔ a ∈ x.marks ∧ a.key = k := by
  simp [markedIn]

theorem mem_markedKeys (k : Key) : k ∈ x.markedKeys ↔ ∃ a ∈ x.marks, a.key = k := by
  simp [markedKeys]

end CacheState

/-! ## Each small step keeps coherence -/

namespace Coherent

variable {owed : List (Address Column)} {x : CacheState} {b p : Table Column}

/-- a new cache stands for the table beneath it -/
theorem new (t : Table Column) : Coherent [] {} t t := by
  refine ⟨fun a h => ?_, fun a v h => ?_, fun _ _ _ => rfl⟩
  · rcases h with h | h
    · exact absurd h Std.ExtTreeSet.not_mem_empty
    · cases h
  · simp [CacheState.value?] at h

/-- marks and cells are all that matters of a cache -/
theorem congr {y : CacheState} (h : Coherent owed x b p) (hm : y.marks = x.marks) (ht : y.table = x.table) :
    Coherent owed y b p := by
  have hv : ∀ a, y.value? a = x.value? a := fun a => by rw [CacheState.value?, CacheState.value?, ht]
  refine ⟨fun a ha => ?_, fun a v ha => ?_, fun a ha ho => ?_⟩
  · rw [hv]; rw [hm] at ha; exact h.kept a ha
  · rw [hv] at ha; exact h.shadow a v ha
  · rw [hm] at ha; exact h.clean a ha ho

theorem reorder {owed' : List (Address Column)} (h : Coherent owed x b p) (ho : ∀ a, a ∈ owed' ↔ a ∈ owed) :
    Coherent owed' x b p :=
  ⟨fun a ha => h.kept a (ha.imp id (ho a).1), h.shadow, fun a ha hn => h.clean a ha (mt (ho a).2 hn)⟩

/-- a cached cell or, if there is none, the cell beneath is the plain table's -/
theorem get_of_absent (h : Coherent [] x b p) {a : Address Column} (ha : x.value? a = none) :
    b.get a.key a.column = p.get a.key a.column := by
  refine h.clean a (fun hm => ?_) List.not_mem_nil
  obtain ⟨v, hv⟩ := h.kept a (.inl hm)
  rw [ha] at hv
  cases hv

theorem eq_of_unmarked (h : Coherent [] x b p) (hm : ∀ a, a ∉ x.marks) : b = p :=
  Table.ext_get fun k c => h.clean ⟨k, c⟩ (hm _) List.not_mem_nil

/-- the rows of the plain table are those beneath and those that have a marked cell -/
theorem mem_keys_iff (h : Coherent [] x b p) (k : Key) : k ∈ p.keys ↔ k ∈ b.keys ∨ k ∈ x.markedKeys := by
  rw [Table.mem_keys, Table.mem_keys, x.mem_markedKeys]
  constructor
  · intro hw
    obtain ⟨col, v, hv⟩ := hw
    by_cases hm : (⟨k, col⟩ : Address Column) ∈ x.marks
    · exact .inr ⟨_, hm, rfl⟩
    · refine .inl ⟨col, v, ?_⟩
      rw [← hv]
      exact h.clean ⟨k, col⟩ hm List.not_mem_nil
  · intro hw
    rcases hw with ⟨col, v, hv⟩ | ⟨a, hm, rfl⟩
    · by_cases hm : (⟨k, col⟩ : Address Column) ∈ x.marks
      · obtain ⟨u, hu⟩ := h.kept _ (.inl hm)
        exact ⟨col, u, h.shadow _ u hu⟩
      · refine ⟨col, v, ?_⟩
        rw [← hv]
        exact (h.clean ⟨k, col⟩ hm List.not_mem_nil).symm
    · obtain ⟨u, hu⟩ := h.kept a (.inl hm)
      exact ⟨a.column, u, h.shadow a u hu⟩

/-! ### Flushes -/

theorem owe_all (h : Coherent [] x b p) : Coherent x.marks.toList x.unmarkAll b p := by
  refine ⟨fun a ha => ?_, h.shadow, fun a _ ho => ?_⟩
  · rcases ha with ha | ha
    · exact absurd ha Std.ExtTreeSet.not_mem_empty
    · exact h.kept a (.inl (Std.ExtTreeSet.mem_toList.1 ha))
  · exact h.clean a (mt Std.ExtTreeSet.mem_toList.2 ho) List.not_mem_nil

theorem owe_row (h : Coherent [] x b p) (k : Key) : Coherent (x.markedIn k) (x.unmarkRow k) b p := by
  refine ⟨fun a ha => ?_, h.shadow, fun a ha ho => ?_⟩
  · rw [x.mem_marks_unmarkRow, x.mem_markedIn] at ha
    exact h.kept a (.inl (ha.elim And.left And.left))
  · rw [x.mem_marks_unmarkRow] at ha
    rw [x.mem_markedIn] at ho
    refine h.clean a (fun hm => ?_) List.not_mem_nil
    by_cases hk : a.key = k
    · exact ho ⟨hm, hk⟩
    · exact ha ⟨hm, hk⟩

/-- writing an owed cell beneath pays for it -/
theorem pay {a : Address Column} {v : Bytes} (h : Coherent (a :: owed) x b p) (hv : x.value? a = some v) :
    Coherent owed x (b.put a.key a.column v) p := by
  refine ⟨fun c hc => h.kept c (hc.imp id (List.mem_cons_of_mem a)), h.shadow, fun c hm ho => ?_⟩
  rw [Table.get_put_at]
  split_ifs with e
  · rw [← e, h.shadow a v hv]
  · refine h.clean c hm fun hc => ?_
    rcases List.mem_cons.1 hc with rfl | hc
    · exact e rfl
    · exact ho hc

theorem remark (h : Coherent owed x b p) : Coherent [] (x.remark owed) b p := by
  have hm : ∀ a, a ∈ (x.remark owed).marks ↔ a ∈ x.marks ∨ a ∈ owed := fun a => by
    simp [CacheState.remark, Std.ExtTreeSet.mem_insertMany_list]
  refine ⟨fun a ha => ?_, h.shadow, fun a ha _ => ?_⟩
  · rw [hm] at ha
    exact h.kept a (ha.resolve_right List.not_mem_nil)
  · rw [hm, not_or] at ha
    exact h.clean a ha.1 ha.2

/-! ### Cells that come and go -/

/-- clean cells may be dropped -/
theorem drop (h : Coherent [] x b p) {out : Address Column → Bool} (hout : ∀ a, out a = true → a ∉ x.marks) :
    Coherent [] (x.drop out) b p := by
  refine ⟨fun a ha => ?_, fun a v ha => ?_, h.clean⟩
  · have hm : a ∈ x.marks := ha.resolve_right List.not_mem_nil
    have keep : ¬ out a = true := fun e => hout a e hm
    rw [x.value?_drop, if_neg keep]
    exact h.kept a ha
  · rw [x.value?_drop] at ha
    split_ifs at ha
    exact h.shadow a v ha

theorem put (h : Coherent [] x b p) (e : Eviction) (now : UInt64) (a : Address Column) (v : Bytes) :
    Coherent [] (x.put e now a v) b (p.put a.key a.column v) := by
  refine ⟨fun c hc => ?_, fun c w hc => ?_, fun c hm ho => ?_⟩
  · rw [x.value?_put]
    rw [x.mem_marks_put] at hc
    split_ifs with hac
    · exact ⟨v, rfl⟩
    · exact h.kept c (.inl ((hc.resolve_right List.not_mem_nil).resolve_left hac))
  · rw [x.value?_put] at hc
    rw [Table.get_put_at]
    split_ifs at hc ⊢
    · exact hc
    · exact h.shadow c w hc
  · rw [x.mem_marks_put, not_or] at hm
    rw [Table.get_put_at, if_neg hm.1]
    exact h.clean c hm.2 ho

/-- a cell that is not cached is taken over from beneath -/
theorem fill (h : Coherent [] x b p) {a : Address Column} {v : Bytes} (ha : x.value? a = none)
    (hv : b.get a.key a.column = some v) :
    Coherent [] (x.fill a v) b p ∧ (x.fill a v).value? a = some v := by
  have filled : x.fill a v = { x with table := x.table.put a.key a.column v } := by simp only [CacheState.fill, ha]
  have hc : ∀ c, (x.fill a v).value? c = if a = c then some v else x.value? c := fun c => by
    rw [filled, CacheState.value?, CacheState.value?, Table.get_put_at]
  have hm : (x.fill a v).marks = x.marks := by rw [filled]
  refine ⟨⟨fun c hcm => ?_, fun c w hw => ?_, fun c hcm ho => ?_⟩, by rw [hc, if_pos rfl]⟩
  · rw [hm] at hcm
    rw [hc]
    split_ifs
    · exact ⟨v, rfl⟩
    · exact h.kept c hcm
  · rw [hc] at hw
    split_ifs at hw with e
    · rw [← e, ← h.get_of_absent ha, hv]
      exact hw
    · exact h.shadow c w hw
  · rw [hm] at hcm
    exact h.clean c hcm ho

/-- a row is forgotten and deleted beneath -/
theorem forgetRow (h : Coherent [] x b p) (k : Key) : Coherent [] (x.forgetRow k) (b.delete k) (p.delete k) := by
  have hv := x.value?_forgetRow k
  have hm : ∀ a, a ∈ (x.forgetRow k).marks ↔ a ∈ x.marks ∧ a.key ≠ k :=
    (x.drop fun a => a.key = k).mem_marks_unmarkRow k
  refine ⟨fun a ha => ?_, fun a v ha => ?_, fun a ha ho => ?_⟩
  · rw [hm] at ha
    have hak := ha.resolve_right List.not_mem_nil
    rw [hv, if_neg hak.2]
    exact h.kept a (.inl hak.1)
  · rw [hv] at ha
    split_ifs at ha with hk
    rw [Table.get_delete, if_neg (Ne.symm hk)]
    exact h.shadow a v ha
  · rw [Table.get_delete, Table.get_delete]
    split_ifs with hk
    · rfl
    · refine h.clean a (fun hn => ha ?_) ho
      rw [hm]
      exact ⟨hn, Ne.symm hk⟩

/-- a cell is forgotten and removed beneath -/
theorem forgetCell (h : Coherent [] x b p) (a : Address Column) :
    Coherent [] ((x.forgetCell a).unmark a) (b.deleteColumn a.key a.column) (p.deleteColumn a.key a.column) := by
  have hv : ∀ c, ((x.forgetCell a).unmark a).value? c = if a = c then none else x.value? c := x.value?_forgetCell a
  have hm : ∀ c, c ∈ ((x.forgetCell a).unmark a).marks ↔ a ≠ c ∧ c ∈ x.marks := fun c => by
    simp [CacheState.unmark, CacheState.forgetCell]
  refine ⟨fun c hc => ?_, fun c v hc => ?_, fun c hc ho => ?_⟩
  · obtain ⟨other, marked⟩ := (hm c).1 (hc.resolve_right List.not_mem_nil)
    rw [hv, if_neg other]
    exact h.kept c (.inl marked)
  · rw [hv] at hc
    split_ifs at hc with other
    rw [Table.get_deleteColumn_at, if_neg other]
    exact h.shadow c v hc
  · rw [Table.get_deleteColumn_at, Table.get_deleteColumn_at]
    split_ifs with same
    · rfl
    · exact h.clean c (fun marked => hc ((hm c).2 ⟨same, marked⟩)) ho

/-- when the last cached cell of a row is forgotten, nothing of the row is cached, and the row may be deleted beneath -/
theorem forgetLast (h : Coherent [] x b p) {a : Address Column} (last : x.isLastInRow a = true) :
    Coherent [] ((x.forgetCell a).unmarkRow a.key) (b.delete a.key) (p.delete a.key) := by
  refine (h.forgetRow a.key).congr rfl (Table.ext_get fun k c => ?_)
  have forgotten := x.value?_forgetRow a.key ⟨k, c⟩
  have removed := x.value?_forgetCell a ⟨k, c⟩
  rw [CacheState.value?] at forgotten removed
  refine removed.trans (Eq.trans ?_ forgotten.symm)
  split_ifs with cell row row
  · rfl
  · exact absurd (cell ▸ rfl) row
  · -- another cell of the row would be cached beside the last one
    subst row
    cases found : x.value? ⟨a.key, c⟩ with
    | none => rfl
    | some v => exact (cell (Address.eq_iff.2 ⟨rfl, (x.eq_of_isLastInRow last found).symm⟩)).elim
  · rfl

end Coherent

end RowFiles
