/-
A table in memory is asked as a finite map.

The table keeps all its rows in one ascending run of cells, and finds, tells and removes a row on a walk over a stretch
of it. `Entries` knows nothing of order: what is held is a function of key and column. `Entries.after` says what a request
makes of it, and `Entries.Right` which reply is the right one.

- `Entries.Right.unique`: there is one right reply.
- `Memory.ask_right`: a request is replied to rightly, and changes the cells as it changes the entries.
- `Memory.replies_agree`: so is every request of a run.
-/
import Mathlib.Data.Option.Basic
import Mathlib.Data.String.Basic
import RowFiles.Proofs.Store.Tables

namespace RowFiles

/-! ## Requests -/

namespace Memory

/-- what a table in memory is asked: the calls of a store, the columns of a row, and the number of cells -/
inductive Request where
  | call (q : Call)
  | columns (key : Key)
  | size

inductive Reply where
  | call (a : Answer)
  | columns (cs : List Column)
  | size (n : Nat)
deriving DecidableEq

def ask (width : Nat) : Request → Run (Table Column) Reply
  | .call q => .call <$> (Table.plainRows width).call q
  | .columns k => fun t => (.ok (.columns (t.walkColumns k)), t)
  | .size => fun t => (.ok (.size t.size), t)

end Memory

/-! ## Entries -/

open Memory

/-- what is held under a key and a column, if anything is -/
abbrev Entries := Key → Column → Option Bytes

namespace Entries

def nothing : Entries := fun _ _ => none

variable (m : Entries)

/-- a row holds something -/
def Has (k : Key) : Prop := ∃ c, (m k c).isSome

/-- the columns of a row that hold something, ascending -/
def Lists (k : Key) (cs : List Column) : Prop := cs.Pairwise (· < ·) ∧ ∀ c, c ∈ cs ↔ (m k c).isSome

def after : Request → Entries
  | .call (.put k c v) => fun l d => if k = l ∧ c = d then some v else m l d
  | .call (.delete k) => fun l d => if k = l then none else m l d
  | .call (.deleteColumn k c) => fun l d => if k = l ∧ c = d then none else m l d
  | _ => m

/-- the right reply to a request -/
def Right : Request → Reply → Prop
  | .call (.put ..), a | .call (.delete _), a | .call (.deleteColumn ..), a | .call .sync, a => a = .call .done
  | .call (.get k c), a => a = .call (.cell (m k c))
  | .call (.hasKey k), a => ∃ yes, a = .call (.flag yes) ∧ (yes = true ↔ m.Has k)
  | .call (.values k), a => ∃ cs vs, a = .call (.values vs) ∧ m.Lists k cs ∧ vs.map some = cs.map (m k)
  | .call .keys, a => ∃ ks, a = .call (.keys ks) ∧ ks.Pairwise (· < ·) ∧ ∀ k, k ∈ ks ↔ m.Has k
  | .columns k, a => ∃ cs, a = .columns cs ∧ m.Lists k cs
  | .size, a => ∃ all : List (Key × Column), a = .size all.length ∧ all.Nodup ∧ ∀ k c, (k, c) ∈ all ↔ (m k c).isSome

/-- each request of a run gets the right reply from what is held when it is made -/
def Agree (m : Entries) : List Request → List Reply → Prop
  | [], [] => True
  | r :: rs, a :: as => m.Right r a ∧ Agree (m.after r) rs as
  | _, _ => False

variable {m}

theorem Lists.unique {k : Key} {cs ds : List Column} (h : m.Lists k cs) (h' : m.Lists k ds) : cs = ds :=
  eq_of_ascending UInt64.lt_irrefl (fun _ _ _ => UInt64.lt_trans) h.1 h'.1 fun c => (h.2 c).trans (h'.2 c).symm

/-- **One reply is right.** -/
theorem Right.unique {r : Request} {a b : Reply} (h : m.Right r a) (h' : m.Right r b) : a = b := by
  cases r with
  | call q =>
    cases q with
    | put | delete | deleteColumn | sync | get => exact Eq.trans h (Eq.symm h')
    | hasKey k =>
      obtain ⟨yes, rfl, has⟩ := h
      obtain ⟨yes', rfl, has'⟩ := h'
      rw [Bool.eq_iff_iff.2 (has.trans has'.symm)]
    | values k =>
      obtain ⟨cs, vs, rfl, lists, values⟩ := h
      obtain ⟨ds, us, rfl, lists', values'⟩ := h'
      rw [← lists.unique lists', ← values] at values'
      rw [List.map_injective_iff.2 (Option.some_injective _) values']
    | keys =>
      obtain ⟨ks, rfl, ascending, mem⟩ := h
      obtain ⟨ls, rfl, ascending', mem'⟩ := h'
      rw [eq_of_ascending lt_irrefl (fun _ _ _ => lt_trans) ascending ascending' fun k => (mem k).trans (mem' k).symm]
  | columns k =>
    obtain ⟨cs, rfl, lists⟩ := h
    obtain ⟨ds, rfl, lists'⟩ := h'
    rw [lists.unique lists']
  | size =>
    obtain ⟨all, rfl, nodup, mem⟩ := h
    obtain ⟨all', rfl, nodup', mem'⟩ := h'
    rw [((List.perm_ext_iff_of_nodup nodup nodup').2 fun p => (mem p.1 p.2).trans (mem' p.1 p.2).symm).length_eq]

end Entries

/-! ## The table -/

namespace Table

variable (t : Table Column)

theorem has_iff {k : Key} : Entries.Has t.get k ↔ ∃ c v, t.get k c = some v := by
  simp only [Entries.Has, Option.isSome_iff_exists]

theorem lists_columns (k : Key) : Entries.Lists t.get k (t.columns k) := by
  constructor
  · rw [columns, List.pairwise_map]
    exact (t.row_ascending k).imp Std.compare_eq_lt.1
  · intro c
    simp only [columns, List.mem_map, Prod.exists, mem_row, Option.isSome_iff_exists]
    constructor
    · rintro ⟨_, v, held, rfl⟩
      exact ⟨v, held⟩
    · rintro ⟨v, held⟩
      exact ⟨c, v, held, rfl⟩

/-- the values of a row are what its columns hold, in their order -/
theorem map_values (k : Key) : (t.values k).map some = (t.columns k).map (t.get k) := by
  rw [values, columns, List.map_map, List.map_map]
  exact List.map_congr_left fun p there => (mem_row.1 there).symm

/-- the addresses of all cells, each once -/
theorem nodup_addresses : (t.toList.map fun p => (p.1.key, p.1.column)).Nodup := by
  rw [List.Nodup, List.pairwise_map]
  refine (Std.ExtTreeMap.ordered_keys_toList (t := t.cells)).imp fun {p q} less same => ?_
  rw [Prod.mk.injEq] at same
  rw [Address.ext same.1 same.2, Std.ReflOrd.compare_self] at less
  cases less

theorem mem_addresses {k : Key} {c : Column} :
    (k, c) ∈ t.toList.map (fun p => (p.1.key, p.1.column)) ↔ (t.get k c).isSome := by
  simp only [List.mem_map, Prod.exists, Prod.mk.injEq, Option.isSome_iff_exists]
  constructor
  · rintro ⟨⟨_, _⟩, v, there, rfl, rfl⟩
    exact ⟨v, mem_toList.1 there⟩
  · rintro ⟨v, held⟩
    exact ⟨⟨k, c⟩, v, mem_toList.2 held, rfl, rfl⟩

theorem length_addresses : (t.toList.map fun p => (p.1.key, p.1.column)).length = t.size := by
  rw [List.length_map, toList, size, Std.ExtTreeMap.length_toList]

end Table

namespace Memory

variable (width : Nat)

theorem ask_call {q : Call} {a : Answer} {t u : Table Column} (answered : (Table.plainRows width).call q t = (.ok a, u)) :
    ask width (.call q) t = (.ok (.call a), u) := by
  rw [ask, Run.map_apply, answered]

/-- **One request**: it gets the right reply, and what the table holds changes as the entries do. -/
theorem ask_right (r : Request) (t : Table Column) :
    ∃ a u, ask width r t = (.ok a, u) ∧ Entries.Right t.get r a ∧ u.get = Entries.after t.get r := by
  cases r with
  | call q =>
    cases q with
    | put k c v => exact ⟨_, _, rfl, rfl, funext fun l => funext fun d => t.get_put k l c d v⟩
    | get k c => exact ⟨_, _, rfl, rfl, rfl⟩
    | delete k =>
      have cleared := ask_call width (Table.plainRows_delete width k t)
      exact ⟨_, _, cleared, rfl, funext fun l => funext fun d => t.get_delete k l d⟩
    | deleteColumn k c => exact ⟨_, _, rfl, rfl, funext fun l => funext fun d => t.get_deleteColumn k l c d⟩
    | hasKey k =>
      have told := ask_call width (Table.plainRows_hasKey width k t)
      exact ⟨_, _, told, ⟨_, rfl, Table.hasKey_iff.trans t.has_iff.symm⟩, rfl⟩
    | values k =>
      have told := ask_call width (Table.plainRows_values width k t)
      exact ⟨_, _, told, ⟨_, _, rfl, t.lists_columns k, t.map_values k⟩, rfl⟩
    | keys =>
      refine ⟨_, _, rfl, ⟨t.keys, rfl, t.keys_ascending.imp compare_lt_iff_lt.1, fun k => ?_⟩, rfl⟩
      exact Table.mem_keys.trans t.has_iff.symm
    | sync => exact ⟨_, _, rfl, rfl, rfl⟩
  | columns k => exact ⟨_, _, rfl, ⟨_, congrArg Reply.columns (t.walkColumns_eq k), t.lists_columns k⟩, rfl⟩
  | size =>
    exact ⟨_, _, rfl, ⟨_, congrArg Reply.size t.length_addresses.symm, t.nodup_addresses, fun _ _ => t.mem_addresses⟩, rfl⟩

/-- a run from any table -/
theorem run_agrees (rs : List Request) (t : Table Column) :
    ∃ as u, rs.mapM (ask width) t = (.ok as, u) ∧ Entries.Agree t.get rs as ∧ u.get = rs.foldl Entries.after t.get := by
  induction rs generalizing t with
  | nil => exact ⟨[], t, rfl, trivial, rfl⟩
  | cons r rs ih =>
    obtain ⟨a, t', asked, right, changed⟩ := ask_right width r t
    obtain ⟨as, u, ran, agree, held⟩ := ih t'
    rw [changed] at agree held
    refine ⟨a :: as, u, ?_, ⟨right, agree⟩, held⟩
    rw [List.mapM_cons, Run.bind_of_ok asked, Run.bind_of_ok ran]
    rfl

/-- **A table in memory is a finite map**: whatever is asked of it, and in whatever order, no request fails, each gets the
right reply for the entries that are held then, and at the end the cells are the entries. -/
theorem replies_agree (rs : List Request) :
    ∃ as t, rs.mapM (ask width) .empty = (.ok as, t) ∧ Entries.Agree Entries.nothing rs as ∧
      t.get = rs.foldl Entries.after Entries.nothing := by
  have start : (Table.empty : Table Column).get = Entries.nothing := funext fun k => funext fun c => Table.get_empty k c
  obtain ⟨as, t, ran, agree, held⟩ := run_agrees width rs .empty
  rw [start] at agree held
  exact ⟨as, t, ran, agree, held⟩

/-- rows whose keys begin alike, or are empty, and a last column -/
example :
    ([.call (.put "a" (UInt64.ofNat (UInt64.size - 1)) [1]), .call (.put "ab" 0 [2]), .call (.put "" 7 [3]), .columns "a",
      .call (.delete "a"), .call (.hasKey "a"), .call (.values "ab"), .call .keys, .size].mapM (ask 1) .empty).1 =
    .ok [.call .done, .call .done, .call .done, .columns [UInt64.ofNat (UInt64.size - 1)], .call .done, .call (.flag false),
      .call (.values [[2]]), .call (.keys ["", "ab"]), .size 2] := by decide +kernel

end Memory

end RowFiles
