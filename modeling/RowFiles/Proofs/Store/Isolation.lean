/-
Two stores in one shared table, and when neither can tell that the other is there.

A lobby has a session and the stores of two spaces. What a store is answered depends on the rows of its own space and on
those that it remembers (`View.Alike`), and a call of the other store changes neither, unless the beginning that one space
puts before its keys begins that of the other.

`isolated_iff`: so the calls of each store are answered in every run as if the other store's were left out, exactly if
neither space is nested in the other. For nested spaces there is a run that leaks, whatever the table holds at first.
-/
import Mathlib.Logic.Function.Basic
import RowFiles.Proofs.Store.Spaces

namespace RowFiles

open Run

/-! ## What a store depends on -/

namespace Wide.View

variable {space other : String} {x y : View}

/-- two views that agree on a space -/
structure Alike (space : String) (x y : View) : Prop where
  cells : ∀ k n, x.table.get (spaceHead space ++ k) n = y.table.get (spaceHead space ++ k) n
  known : x.known = y.known

namespace Alike

theorem refl (space : String) (x : View) : Alike space x x := ⟨fun _ _ => rfl, rfl⟩

theorem keys (h : Alike space x y) : x.table.keys.filterMap (ownKey? space) = y.table.keys.filterMap (ownKey? space) := by
  rw [filterMap_ownKey?, filterMap_ownKey? space y.table.keys]
  congr 1
  refine eq_of_ascending (fun k => ?_) (fun _ _ _ => Std.TransCmp.lt_trans)
    (x.table.keys_ascending.filter _) (y.table.keys_ascending.filter _) fun q => ?_
  · rw [Std.ReflOrd.compare_self]
    nofun
  · rw [List.mem_filter, List.mem_filter]
    refine and_congr_left fun own => ?_
    obtain ⟨rest, e⟩ := List.isPrefixOf_iff_prefix.1 own
    have named : q = spaceHead space ++ String.ofList rest := by
      rw [← String.toList_inj, ← e]
      simp
    simp only [named, Table.mem_keys, h.cells]

theorem answer (h : Alike space x y) (q : Call) : x.answer space q = y.answer space q := by
  cases q with
  | get k c => exact congrArg Answer.cell (h.cells k c.toInt64)
  | hasKey k => rw [View.answer, View.answer, h.known, Table.hasKey_congr (h.cells k)]
  | values k => exact congrArg Answer.values (Table.values_congr (h.cells k))
  | keys => exact congrArg Answer.keys h.keys
  | put | delete | deleteColumn | sync => rfl

theorem after (h : Alike space x y) (q : Call) : Alike space (x.after space q) (y.after space q) := by
  cases q with
  | put k c v =>
    exact ⟨fun l n => by simp only [View.after, Table.get_put, h.cells], by rw [View.after, View.after, h.known]⟩
  | delete k =>
    exact ⟨fun l n => by simp only [View.after, Table.get_delete, h.cells], by rw [View.after, View.after, h.known]⟩
  | deleteColumn k c =>
    exact ⟨fun l n => by simp only [View.after, Table.get_deleteColumn, h.cells], by rw [View.after, View.after, h.known]⟩
  | hasKey k =>
    rw [View.after, View.after, h.known, Table.hasKey_congr (h.cells k)]
    split_ifs
    · exact h
    · exact ⟨h.cells, rfl⟩
    · exact h
  | get | values | keys | sync => exact h

end Alike

/-- keys of spaces that are not nested differ -/
theorem key_ne (apart : ¬ (spaceHead space).toList <+: (spaceHead other).toList)
    (apart' : ¬ (spaceHead other).toList <+: (spaceHead space).toList) (k l : Key) :
    spaceHead other ++ l ≠ spaceHead space ++ k := by
  intro e
  have begins : (spaceHead other).toList <+: (spaceHead space ++ k).toList := e ▸ spaceHead_begins l
  exact (List.prefix_or_prefix_of_prefix (spaceHead_begins k) begins).elim apart apart'

/-- a call of a store leaves the cells of other spaces alone -/
theorem get_after (apart : ¬ (spaceHead space).toList <+: (spaceHead other).toList)
    (apart' : ¬ (spaceHead other).toList <+: (spaceHead space).toList) (q : Call) (k : Key) (n : Int64) :
    (x.after other q).table.get (spaceHead space ++ k) n = x.table.get (spaceHead space ++ k) n := by
  have ne := key_ne apart apart' k
  cases q with
  | put l c v => exact (Table.get_put ..).trans (if_neg fun e => ne l e.1)
  | delete l => exact (Table.get_delete ..).trans (if_neg fun e => ne l e)
  | deleteColumn l c => exact (Table.get_deleteColumn ..).trans (if_neg fun e => ne l e.1)
  | hasKey l =>
    rw [View.after]
    split_ifs <;> rfl
  | get | values | keys | sync => rfl

end Wide.View

/-! ## A lobby and its stores -/

structure Lobby where
  session : SessionTable
  /-- the rows that each of the two stores has seen to exist -/
  known : Bool → KnownRows := fun _ => ∅

namespace Lobby

open Wide

variable (settings : Bool → WideSettings)

/-- the two stores of a lobby -/
def store (i : Bool) : Wide (Run Lobby) where
  session := SessionTable.session (Run.part Lobby.session fun x l => { l with session := x })
  settings := settings i
  known := Run.part (fun l => l.known i) fun k l => { l with known := Function.update l.known i k }

/-- what the calls of store `i` are answered in a run of calls on both stores -/
def told (i : Bool) : List (Bool × Call) → Lobby → List (Except Error Answer)
  | [], _ => []
  | (j, q) :: rest, l =>
    let (a, l') := (store settings j).rows.call q l
    if j = i then a :: told i rest l' else told i rest l'

/-- what store `i` of a lobby sees -/
def view (i : Bool) (l : Lobby) : View := ⟨l.session.table, l.known i⟩

/-- what a lobby shows to the store `i`, beside the rows that the other one remembers -/
def Shows (i : Bool) (others : Bool → KnownRows) (l : Lobby) (x : View) : Prop :=
  l.session.down = none ∧ l.session.table = x.table ∧ l.known = Function.update others i x.known

theorem store_laws (i : Bool) (others : Bool → KnownRows) : (store settings i).Laws (Shows i others) unrefused where
  session known := SessionTable.Open.laws
    { up := fun _ _ h => h.1
      table := fun _ _ h => h.2.1
      get_set := fun _ _ => rfl
      set_set := fun _ _ _ => rfl
      set := fun _ _ _ h up => ⟨up, rfl, h.2.2⟩ }
  read l x h := by
    have known : l.known i = x.known := by rw [h.2.2, Function.update_self]
    rw [← known]
    rfl
  write known x l h := by
    refine ⟨{ x with known := known }, ⟨h.1, h.2.1, ?_⟩, (), rfl, rfl⟩
    change Function.update l.known i known = _
    rw [h.2.2, Function.update_idem]

/-- a call on a lobby answers from what its store sees; the other store remembers what it did -/
theorem call_told {l : Lobby} (up : l.session.down = none) (i : Bool) (q : Call) :
    ∃ l', (store settings i).rows.call q l = (.ok ((l.view i).answer (settings i).space q), l') ∧ l'.session.down = none ∧
      l'.view i = (l.view i).after (settings i).space q ∧ l'.known (!i) = l.known (!i) := by
  have shown : Shows i l.known l (l.view i) := ⟨up, rfl, (Function.update_eq_self i l.known).symm⟩
  have told := ((store_laws settings i l.known).call q (l.view i)).yields fun _ _ => id
  obtain ⟨_, l', _, ran, ⟨up', table, known⟩, rfl, rfl⟩ := told.run shown
  refine ⟨l', ran, up', ?_, ?_⟩
  · rw [view, table, known, Function.update_self]
    rfl
  · rw [known, Function.update_of_ne (by simp)]

variable {settings}

/-- **The other store's calls go unnoticed**, if spaces are not nested: from lobbies that look alike to a store, it is told
the same with and without them. -/
theorem told_alone (apart : ∀ i, ¬ (spaceHead (settings i).space).toList <+: (spaceHead (settings !i).space).toList)
    (i : Bool) (calls : List (Bool × Call)) {l l' : Lobby} (up : l.session.down = none) (up' : l'.session.down = none)
    (alike : View.Alike (settings i).space (l.view i) (l'.view i)) :
    told settings i calls l = told settings i (calls.filter fun p => p.1 = i) l' := by
  induction calls generalizing l l' with
  | nil => rfl
  | cons p calls ih =>
    obtain ⟨j, q⟩ := p
    obtain ⟨m, ran, up, seen, others⟩ := call_told settings up j q
    rw [told, ran]
    by_cases own : j = i
    · subst own
      obtain ⟨m', ran', up', seen', _⟩ := call_told settings up' j q
      rw [List.filter_cons_of_pos (by simp), told, ran']
      simp only [if_true]
      rw [alike.answer q, ih up up' (by rw [seen, seen']; exact alike.after q)]
    · obtain rfl : j = !i := by cases i <;> cases j <;> simp_all
      rw [List.filter_cons_of_neg (by simp)]
      simp only [own, if_false]
      refine ih up up' ⟨fun k n => ?_, ?_⟩
      · have same : (m.view i).table = (m.view !i).table := rfl
        have apart' := apart (!i)
        rw [Bool.not_not] at apart'
        rw [same, seen, View.get_after (apart i) apart', ← alike.cells]
        rfl
      · rw [← alike.known]
        rw [Bool.not_not] at others
        exact others

/-- **Nested spaces leak**, whatever the table holds: the store of the inner one puts a cell that the other one gets. -/
theorem told_nested {i : Bool} (nested : (spaceHead (settings i).space).toList <+: (spaceHead (settings !i).space).toList)
    {l : Lobby} (up : l.session.down = none) :
    ∃ calls, told settings i calls l ≠ told settings i (calls.filter fun p => p.1 = i) l := by
  obtain ⟨rest, e⟩ := nested
  have same : spaceHead (settings !i).space ++ "" = spaceHead (settings i).space ++ String.ofList rest := by
    rw [← String.toList_inj, String.toList_append, String.toList_append, ← e]
    simp
  -- a value that the cell does not hold yet
  obtain ⟨v, new⟩ : ∃ v : Bytes, l.session.table.get (spaceHead (settings i).space ++ String.ofList rest) 0 ≠ some v := by
    by_cases h : l.session.table.get (spaceHead (settings i).space ++ String.ofList rest) 0 = some []
    · exact ⟨[0], fun h' => by rw [h] at h'; cases h'⟩
    · exact ⟨[], h⟩
  obtain ⟨m, put, up', seen, _⟩ := call_told settings up (!i) (.put "" 0 v)
  obtain ⟨_, got, _⟩ := call_told settings up' i (.get (String.ofList rest) 0)
  obtain ⟨_, alone, _⟩ := call_told settings up i (.get (String.ofList rest) 0)
  have written : m.session.table.get (spaceHead (settings i).space ++ String.ofList rest) 0 = some v := by
    have table : m.session.table = l.session.table.put (spaceHead (settings i).space ++ String.ofList rest) 0 v := by
      rw [← same]
      exact congrArg View.table seen
    rw [table, Table.get_put, if_pos ⟨rfl, rfl⟩]
  refine ⟨[(!i, .put "" 0 v), (i, .get (String.ofList rest) 0)], fun told_same => new ?_⟩
  have both : told settings i [(!i, .put "" 0 v), (i, .get (String.ofList rest) 0)] l =
      [.ok ((m.view i).answer (settings i).space (.get (String.ofList rest) 0))] := by
    simp [told, put, got]
  have own : told settings i ([(!i, .put "" 0 v), (i, .get (String.ofList rest) 0)].filter fun p => p.1 = i) l =
      [.ok ((l.view i).answer (settings i).space (.get (String.ofList rest) 0))] := by
    simp [told, alone]
  rw [both, own] at told_same
  simp only [List.cons.injEq, Except.ok.injEq, View.answer, Answer.cell.injEq, and_true] at told_same
  exact told_same.symm.trans written

/-- **Isolation, exactly.** In every run of calls on both stores each store is told what it is told without the other
store's calls, exactly if neither space is nested in the other. -/
theorem isolated_iff (settings : Bool → WideSettings) (table : Table Int64) (narrow : Bool) :
    (∀ i calls, told settings i calls { session := { table, narrow } } =
        told settings i (calls.filter fun p => p.1 = i) { session := { table, narrow } }) ↔
      ¬ (spaceHead (settings false).space).toList <+: (spaceHead (settings true).space).toList ∧
        ¬ (spaceHead (settings true).space).toList <+: (spaceHead (settings false).space).toList := by
  constructor
  · intro isolated
    refine ⟨fun nested => ?_, fun nested => ?_⟩
    · obtain ⟨calls, leak⟩ := told_nested (i := false) nested (l := { session := { table, narrow } }) rfl
      exact leak (isolated false calls)
    · obtain ⟨calls, leak⟩ := told_nested (i := true) nested (l := { session := { table, narrow } }) rfl
      exact leak (isolated true calls)
  · rintro ⟨apart, apart'⟩ i calls
    refine told_alone (fun i => ?_) i calls rfl rfl (.refl ..)
    cases i
    · exact apart
    · exact apart'

end Lobby

end RowFiles
