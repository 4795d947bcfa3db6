/-
A table held in memory: a finite map from addresses (row, column) to cells, in the order of the row's key and then of
the column, so that each row is one stretch of it and its cells come in ascending order.

`Table.store` answers the calls of a store from a table. It finds, tells and removes a row on a walk from its first column
to the last one. The column type is free because a wide-column table names its columns by signed numbers.
-/
import RowFiles.Store
import Std.Data.ExtTreeMap
import Std.Data.ExtTreeSet

namespace RowFiles

/-! ## Addresses -/

@[ext]
structure Address (κ : Type) where
  key : Key
  column : κ
deriving DecidableEq, Repr

namespace Address

variable {κ : Type} [Ord κ]

/-- by key, then by column -/
instance : Ord (Address κ) := ⟨compareLex (compareOn Address.key) (compareOn Address.column)⟩

instance [Std.TransOrd κ] : Std.TransOrd (Address κ) :=
  inferInstanceAs (Std.TransCmp (compareLex (compareOn Address.key) (compareOn Address.column)))

theorem compare_eq (a b : Address κ) :
    compare a b = (compare a.key b.key).then (compare a.column b.column) := rfl

instance [Std.LawfulEqOrd κ] : Std.LawfulEqOrd (Address κ) where
  compare_self {a} := by rw [compare_eq, Std.ReflOrd.compare_self, Std.ReflOrd.compare_self]; rfl
  eq_of_compare {a b} h := by
    rw [compare_eq, Ordering.then_eq_eq] at h
    obtain ⟨k, c⟩ := a
    obtain ⟨k', c'⟩ := b
    rw [show k = k' from Std.LawfulEqOrd.eq_of_compare h.1, show c = c' from Std.LawfulEqOrd.eq_of_compare h.2]

end Address

/-! ## Tables -/

structure Table (κ : Type) [Ord κ] where
  cells : Std.ExtTreeMap (Address κ) Bytes compare

namespace Table

variable {κ : Type} [Ord κ] [Std.TransOrd κ]

def empty : Table κ := ⟨∅⟩

instance : Inhabited (Table κ) := ⟨empty⟩

def put (t : Table κ) (k : Key) (c : κ) (v : Bytes) : Table κ := ⟨t.cells.insert ⟨k, c⟩ v⟩

def get (t : Table κ) (k : Key) (c : κ) : Option Bytes := t.cells[(⟨k, c⟩ : Address κ)]?

def deleteColumn (t : Table κ) (k : Key) (c : κ) : Table κ := ⟨t.cells.erase ⟨k, c⟩⟩

def delete (t : Table κ) (k : Key) : Table κ := ⟨t.cells.filter fun a _ => a.key ≠ k⟩

/-- every cell with its address, ascending -/
def toList (t : Table κ) : List (Address κ × Bytes) := t.cells.toList

/-- the cells of a row with their columns, ascending -/
def row (t : Table κ) (k : Key) : List (κ × Bytes) :=
  (t.toList.filter fun p => p.1.key = k).map fun p => (p.1.column, p.2)

def columns (t : Table κ) (k : Key) : List κ := (t.row k).map Prod.fst

def values (t : Table κ) (k : Key) : List Bytes := (t.row k).map Prod.snd

def hasKey (t : Table κ) (k : Key) : Bool := t.toList.any fun p => p.1.key = k

/-- the keys of the rows that have a cell, ascending; a row's addresses are neighbours, so dropping repeats of the
neighbour leaves each key once -/
def keys (t : Table κ) : List Key := (t.toList.map fun p => p.1.key).eraseReps

/-- the number of cells -/
def size (t : Table κ) : Nat := t.cells.size

/-! ### Walks -/

/-- the cells from one address to another, both included: past all that come before, and on until one comes after -/
def span (t : Table κ) (first last : Address κ) : List (Address κ × Bytes) :=
  (t.toList.dropWhile fun p => (compare p.1 first).isLT).takeWhile fun p => (compare p.1 last).isLE

/-- a table without some cells, which are removed one by one -/
def without (t : Table κ) (cells : List (Address κ × Bytes)) : Table κ :=
  cells.foldl (fun t p => t.deleteColumn p.1.key p.1.column) t

/-- the cells that are met on the way from the first column of a row to the last one there can be -/
def walk (t : Table Column) (k : Key) : List (Address Column × Bytes) :=
  t.span ⟨k, 0⟩ ⟨k, UInt64.ofNat (UInt64.size - 1)⟩

def walkColumns (t : Table Column) (k : Key) : List Column := (t.walk k).map (·.1.column)

/-! ### Through `get` -/

@[simp] theorem get_empty (k : Key) (c : κ) : (empty : Table κ).get k c = none := by simp [empty, get]

variable [Std.LawfulEqOrd κ]

/-- tables are their cells -/
theorem ext_get {t u : Table κ} (h : ∀ k c, t.get k c = u.get k c) : t = u := by
  obtain ⟨t⟩ := t
  obtain ⟨u⟩ := u
  exact congrArg mk (Std.ExtTreeMap.ext_getElem? fun a => h a.key a.column)

theorem get_put [DecidableEq κ] (t : Table κ) (k k' : Key) (c c' : κ) (v : Bytes) :
    (t.put k c v).get k' c' = if k = k' ∧ c = c' then some v else t.get k' c' := by
  simp [put, get, Std.ExtTreeMap.getElem?_insert]

theorem get_deleteColumn [DecidableEq κ] (t : Table κ) (k k' : Key) (c c' : κ) :
    (t.deleteColumn k c).get k' c' = if k = k' ∧ c = c' then none else t.get k' c' := by
  simp [deleteColumn, get, Std.ExtTreeMap.getElem?_erase]

theorem get_delete (t : Table κ) (k k' : Key) (c' : κ) :
    (t.delete k).get k' c' = if k = k' then none else t.get k' c' := by
  simp only [delete, get, Std.ExtTreeMap.getElem?_filter']
  by_cases h : k = k' <;> cases t.cells[(⟨k', c'⟩ : Address κ)]? <;> simp [Option.filter, h, eq_comm]

theorem mem_toList {t : Table κ} {a : Address κ} {v : Bytes} : (a, v) ∈ t.toList ↔ t.get a.key a.column = some v :=
  Std.ExtTreeMap.mem_toList_iff_getElem?_eq_some

theorem mem_row {t : Table κ} {k : Key} {c : κ} {v : Bytes} : (c, v) ∈ t.row k ↔ t.get k c = some v := by
  simp only [row, List.mem_map, List.mem_filter, decide_eq_true_eq, Prod.mk.injEq, Prod.exists]
  constructor
  · rintro ⟨⟨k', c'⟩, v', ⟨hm, rfl⟩, rfl, rfl⟩
    exact mem_toList.1 hm
  · intro h
    exact ⟨⟨k, c⟩, v, ⟨mem_toList.2 h, rfl⟩, rfl, rfl⟩

theorem hasKey_iff {t : Table κ} {k : Key} : t.hasKey k = true ↔ ∃ c v, t.get k c = some v := by
  simp only [hasKey, List.any_eq_true, decide_eq_true_eq, Prod.exists]
  constructor
  · rintro ⟨⟨k', c⟩, v, hm, rfl⟩
    exact ⟨c, v, mem_toList.1 hm⟩
  · rintro ⟨c, v, h⟩
    exact ⟨⟨k, c⟩, v, mem_toList.2 h, rfl⟩

end Table

/-! ## As a store -/

section Store

variable {m : Type → Type} [Monad m]

/-- the calls of a store, answered from a table in the state -/
def Table.rows (p : Part m (Table Column)) (width : Nat) : Rows m where
  width := width
  put k c v := p.modify (·.put k c v)
  get k c := (·.get k c) <$> p.read
  delete k := p.modify fun t => t.without (t.walk k)
  deleteColumn k c := p.modify (·.deleteColumn k c)
  hasKey k := (fun t => !(t.walk k).isEmpty) <$> p.read
  values k := (fun t => (t.walk k).map Prod.snd) <$> p.read
  keys := Table.keys <$> p.read
  sync := pure ()

def Table.store (p : Part m (Table Column)) (width : Nat) : Store m := { Table.rows p width with }

end Store

end RowFiles
