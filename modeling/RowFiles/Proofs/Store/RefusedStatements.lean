/-
A store in a shared table whose session may refuse any statement.

A tenant has a session, which refuses statements as it likes, each without effect, and the store of one space. Others write
to the table too, but not to the rows of that space. A run goes on whatever its calls are answered.

- `View.Holds`: the space holds a plain table, and every row that the store remembers is in it. Calls keep this
  (`View.Holds.call`), those for single cells because they forget the row whether or not it was the last one.
- `successes_match`: so every call that ends well is answered as by the plain table which runs only these, and a call that
  fails does so for the session's own reason and leaves everything as it was.
-/
import RowFiles.Proofs.Store.Spaces

namespace RowFiles

open Run

/-! ## Column numbers as signed names -/

theorem toInt64_inj {c d : Column} : c.toInt64 = d.toInt64 ↔ c = d :=
  ⟨fun e => by rw [← c.toUInt64_toInt64, e, d.toUInt64_toInt64], congrArg _⟩

/-! ## The table that a space holds -/

namespace Wide.View

variable {space : String} {x : View} {t : Table Column}

/-- the space of the shared table holds the table `t`, and the rows that are remembered are some of its -/
structure Holds (space : String) (x : View) (t : Table Column) : Prop where
  cells : ∀ k c, t.get k c = x.table.get (spaceHead space ++ k) c.toInt64
  known : ∀ {k}, spaceHead space ++ k ∈ x.known → t.hasKey k = true

namespace Holds

theorem get_name (h : x.Holds space t) (k : Key) (n : Int64) :
    x.table.get (spaceHead space ++ k) n = t.get k n.toUInt64 := by
  rw [h.cells, n.toInt64_toUInt64]

theorem hasKey (h : x.Holds space t) (k : Key) : x.table.hasKey (spaceHead space ++ k) = t.hasKey k := by
  rw [Bool.eq_iff_iff, Table.hasKey_iff, Table.hasKey_iff]
  constructor
  · rintro ⟨n, v, found⟩
    exact ⟨n.toUInt64, v, (h.get_name k n).symm.trans found⟩
  · rintro ⟨c, v, found⟩
    exact ⟨c.toInt64, v, (h.cells k c).symm.trans found⟩

/-- the cells of a row, in the order of their signed names -/
theorem values (h : x.Holds space t) (k : Key) : (x.table.values (spaceHead space ++ k)).Perm (t.values k) := by
  have names : Function.Injective fun p : Column × Bytes => (p.1.toInt64, p.2) := by
    rintro ⟨c, v⟩ ⟨d, w⟩ e
    rw [Prod.mk.injEq, toInt64_inj] at e
    exact Prod.ext e.1 e.2
  have rows : (x.table.row (spaceHead space ++ k)).Perm ((t.row k).map fun p => (p.1.toInt64, p.2)) := by
    refine (List.perm_ext_iff_of_nodup (Table.nodup_row _ _) ((Table.nodup_row t k).map names)).2 fun p => ?_
    obtain ⟨n, v⟩ := p
    rw [Table.mem_row, h.get_name, List.mem_map]
    constructor
    · intro found
      exact ⟨(n.toUInt64, v), Table.mem_row.2 found, by rw [n.toInt64_toUInt64]⟩
    · rintro ⟨⟨c, w⟩, found, e⟩
      rw [Prod.mk.injEq] at e
      obtain ⟨rfl, rfl⟩ := e
      rw [c.toUInt64_toInt64]
      exact Table.mem_row.1 found
  have values := rows.map Prod.snd
  rw [List.map_map] at values
  exact values

theorem keys (h : x.Holds space t) :
    (x.table.keys.filterMap (ownKey? space)).Nodup ∧ ∀ k, k ∈ x.table.keys.filterMap (ownKey? space) ↔ k ∈ t.keys := by
  refine ⟨x.table.nodup_keys.filterMap fun q q' k own own' => ?_, fun k => ?_⟩
  · rw [ownKey?_eq_some.1 own, ownKey?_eq_some.1 own']
  · have listed : k ∈ x.table.keys.filterMap (ownKey? space) ↔ spaceHead space ++ k ∈ x.table.keys := by
      rw [List.mem_filterMap]
      constructor
      · rintro ⟨q, there, own⟩
        exact ownKey?_eq_some.1 own ▸ there
      · intro there
        exact ⟨_, there, ownKey?_eq_some.2 rfl⟩
    rw [listed, Table.mem_keys, ← Table.hasKey_iff, h.hasKey, Table.hasKey_iff, ← Table.mem_keys]

theorem put (h : x.Holds space t) (k : Key) (c : Column) (v : Bytes) :
    (x.after space (.put k c v)).Holds space (t.put k c v) where
  cells l d := by
    rw [after, Table.get_put, Table.get_put, h.cells]
    exact if_congr (and_congr (String.append_right_inj _).symm toInt64_inj.symm) rfl rfl
  known {l} there := by
    rw [after, Std.ExtTreeSet.mem_insert, Std.LawfulEqOrd.compare_eq_iff_eq, String.append_right_inj] at there
    rcases there with rfl | there
    · exact Table.hasKey_iff.2 ⟨c, v, by rw [Table.get_put, if_pos ⟨rfl, rfl⟩]⟩
    · obtain ⟨d, w, found⟩ := Table.hasKey_iff.1 (h.known there)
      by_cases here : k = l ∧ c = d
      · exact Table.hasKey_iff.2 ⟨d, v, by rw [Table.get_put, if_pos here]⟩
      · exact Table.hasKey_iff.2 ⟨d, w, by rw [Table.get_put, if_neg here, found]⟩

/-- a row is forgotten whose cells are removed, all or one -/
theorem forget (h : x.Holds space t) (k : Key) {table : Table Int64} {u : Table Column}
    (cells : ∀ l d, u.get l d = table.get (spaceHead space ++ l) d.toInt64)
    (rest : ∀ l, k ≠ l → ∀ d, u.get l d = t.get l d) :
    Holds space ⟨table, x.known.erase (spaceHead space ++ k)⟩ u where
  cells := cells
  known {l} there := by
    rw [Std.ExtTreeSet.mem_erase] at there
    have other : k ≠ l := by
      rintro rfl
      exact there.1 Std.ReflOrd.compare_self
    rw [Table.hasKey_congr (rest l other)]
    exact h.known there.2

/-- **A call keeps the space a plain table**, and is answered as by it. -/
theorem call (h : x.Holds space t) (width : Nat) (q : Call) :
    ∃ b u, (Table.plainRows width).call q t = (.ok b, u) ∧ (x.answer space q).Matches b ∧
      (x.after space q).Holds space u := by
  cases q with
  | put k c v => exact ⟨.done, t.put k c v, rfl, rfl, h.put k c v⟩
  | get k c => exact ⟨.cell (t.get k c), t, rfl, congrArg Answer.cell (h.cells k c).symm, h⟩
  | delete k =>
    refine ⟨.done, t.delete k, Table.plainRows_delete .., rfl, h.forget k (fun l d => ?_) fun l other d => ?_⟩
    · rw [Table.get_delete, Table.get_delete, h.cells]
      exact if_congr (String.append_right_inj _).symm rfl rfl
    · rw [Table.get_delete, if_neg other]
  | deleteColumn k c =>
    refine ⟨.done, t.deleteColumn k c, rfl, rfl, h.forget k (fun l d => ?_) fun l other d => ?_⟩
    · rw [Table.get_deleteColumn, Table.get_deleteColumn, h.cells]
      exact if_congr (and_congr (String.append_right_inj _).symm toInt64_inj.symm) rfl rfl
    · rw [Table.get_deleteColumn, if_neg fun e => other e.1]
  | hasKey k =>
    refine ⟨.flag (t.hasKey k), t, Table.plainRows_hasKey .., ?_, ?_⟩
    · have sound : x.known.contains (spaceHead space ++ k) = true → t.hasKey k = true := fun there => h.known there
      rw [answer, h.hasKey]
      cases remembered : x.known.contains (spaceHead space ++ k) with
      | true => rw [sound remembered]; rfl
      | false => rfl
    · rw [after]
      split_ifs with _ there
      · exact h
      · refine ⟨h.cells, fun {l} remembered => ?_⟩
        rw [Std.ExtTreeSet.mem_insert, Std.LawfulEqOrd.compare_eq_iff_eq, String.append_right_inj] at remembered
        rcases remembered with rfl | remembered
        · rw [← h.hasKey, there]
        · exact h.known remembered
      · exact h
  | values k => exact ⟨.values (t.values k), t, Table.plainRows_values .., h.values k, h⟩
  | keys => exact ⟨.keys t.keys, t, rfl, h.keys, h⟩
  | sync => exact ⟨.done, t, rfl, rfl, h⟩

/-- what others do to a row outside of the space does not show -/
theorem others (h : x.Holds space t) {table : Table Int64}
    (same : ∀ k n, table.get (spaceHead space ++ k) n = x.table.get (spaceHead space ++ k) n) :
    Holds space { x with table := table } t :=
  ⟨fun k c => (h.cells k c).trans (same k _).symm, h.known⟩

end Holds

end Wide.View

/-! ## A tenant and its runs -/

structure Tenant where
  session : SessionTable
  /-- the rows that the store has seen to exist -/
  known : KnownRows := ∅
  /-- how many statements the session has been asked to run -/
  asked : Nat := 0

namespace Tenant

open Wide

inductive Step where
  | call (q : Call)
  /-- someone else sets a cell of the shared table, or removes it -/
  | other (key : Key) (name : Int64) (value : Option Bytes)

/-- a call of a run, and what it came to -/
structure Report where
  call : Call
  before : Tenant
  result : Except Error Answer
  after : Tenant

/-- the `n`th statement is refused if `refuse n` gives a reason -/
def ask (refuse : Nat → Option Error) (_ : Statement) : Run Tenant Unit := fun h =>
  (match refuse h.asked with | some e => .error e | none => .ok (), { h with asked := h.asked + 1 })

variable (settings : WideSettings) (refuse : Nat → Option Error)

/-- the store of a tenant -/
def store : Wide (Run Tenant) where
  session := (SessionTable.session (Run.part Tenant.session fun x h => { h with session := x })).guarded (ask refuse)
  settings := settings
  known := Run.part Tenant.known fun k h => { h with known := k }

/-- the shared table after someone else has set or removed a cell -/
def changed (t : Table Int64) (key : Key) (name : Int64) : Option Bytes → Table Int64
  | some v => t.put key name v
  | none => t.deleteColumn key name

/-- the calls of a run, each with what it came to -/
def play : List Step → Tenant → List Report
  | [], _ => []
  | .call q :: rest, h =>
    let (a, h') := (store settings refuse).rows.call q h
    ⟨q, h, a, h'⟩ :: play rest h'
  | .other key name value :: rest, h =>
    play rest { h with session := { h.session with table := changed h.session.table key name value } }

/-- the calls that ended well, with their answers -/
def successes (reports : List Report) : List (Call × Answer) :=
  reports.filterMap fun r => r.result.toOption.map fun a => (r.call, a)

/-- what a tenant shows to its store -/
def Shows (h : Tenant) (x : View) : Prop := h.session.down = none ∧ h.session.table = x.table ∧ h.known = x.known

theorem store_laws : (store settings refuse).Laws Shows fun h e => refuse h.asked = some e where
  session known := by
    refine Session.Laws.guarded (SessionTable.Open.laws
      { up := fun _ _ h => h.1
        table := fun _ _ h => h.2.1
        get_set := fun _ _ => rfl
        set_set := fun _ _ _ => rfl
        set := fun _ _ _ h up => ⟨up, rfl, h.2.2⟩ }) fun st t h hs => ?_
    cases refused : refuse h.asked with
    | none => exact .inl ⟨(), t, by simp only [ask, refused], hs, rfl⟩
    | some e => exact .inr ⟨e, rfl, by simp only [ask, refused], hs⟩
  read h x hs := by
    rw [← hs.2.2]
    rfl
  write known x h hs := ⟨{ x with known := known }, ⟨hs.1, hs.2.1, rfl⟩, (), rfl, rfl⟩

variable {settings}

/-- one call: it ends well, as by the plain table, or fails without effect -/
theorem call_matches {h : Tenant} {x : View} {t : Table Column} (shows : Shows h x) (holds : x.Holds settings.space t)
    (width : Nat) (q : Call) :
    ∃ r h', (store settings refuse).rows.call q h = (r, h') ∧
      ((∃ a b y u, r = .ok a ∧ (Table.plainRows width).call q t = (.ok b, u) ∧ a.Matches b ∧ Shows h' y ∧
          y.Holds settings.space u) ∨
        ∃ e, r = .error e ∧ refuse h.asked = some e ∧ Shows h' x) := by
  refine ⟨_, _, rfl, ?_⟩
  rcases (store_laws settings refuse).call q x h shows with ⟨a, y, ran, shows', rfl, rfl⟩ | ⟨e, refused, ran, shows'⟩
  · obtain ⟨b, u, plain, agree, holds'⟩ := holds.call width q
    exact .inl ⟨_, b, _, u, ran, plain, agree, shows', holds'⟩
  · exact .inr ⟨e, ran, refused, shows'⟩

/-- a cell that someone else changes lies outside of the space -/
theorem get_changed {space : String} {key : Key} (abroad : ¬ (spaceHead space).toList <+: key.toList) (table : Table Int64)
    (name : Int64) (value : Option Bytes) (k : Key) (n : Int64) :
    (changed table key name value).get (spaceHead space ++ k) n = table.get (spaceHead space ++ k) n := by
  have other : key ≠ spaceHead space ++ k := by
    rintro rfl
    exact abroad (spaceHead_begins k)
  cases value with
  | some v => exact (Table.get_put ..).trans (if_neg fun e => other e.1)
  | none => exact (Table.get_deleteColumn ..).trans (if_neg fun e => other e.1)

theorem play_matches (width : Nat) (steps : List Step)
    (abroad : ∀ key name value, .other key name value ∈ steps → ¬ (spaceHead settings.space).toList <+: key.toList)
    {h : Tenant} {x : View} {t : Table Column} (shows : Shows h x) (holds : x.Holds settings.space t) :
    (∃ plain u, ((successes (play settings refuse steps h)).map Prod.fst).mapM (Table.plainRows width).call t =
        (.ok plain, u) ∧
      List.Forall₂ Answer.Matches ((successes (play settings refuse steps h)).map Prod.snd) plain) ∧
    ∀ r ∈ play settings refuse steps h, ∀ e, r.result = .error e → refuse r.before.asked = some e ∧
      r.after.session.table = r.before.session.table ∧ r.after.known = r.before.known := by
  induction steps generalizing h x t with
  | nil => exact ⟨⟨[], t, rfl, .nil⟩, fun r there => absurd there List.not_mem_nil⟩
  | cons step rest ih =>
    have later : ∀ key name value, .other key name value ∈ rest → ¬ (spaceHead settings.space).toList <+: key.toList :=
      fun key name value there => abroad key name value (List.mem_cons_of_mem _ there)
    cases step with
    | call q =>
      obtain ⟨r, h', ran, ⟨a, b, y, u, rfl, plain, agree, shows', holds'⟩ | ⟨e, rfl, refused, shows'⟩⟩ :=
        call_matches refuse shows holds width q
      · obtain ⟨⟨bs, w, plainRest, agreeRest⟩, failed⟩ := ih later shows' holds'
        rw [play, ran]
        refine ⟨⟨b :: bs, w, ?_, .cons agree agreeRest⟩, ?_⟩
        · change (q :: (successes (play settings refuse rest h')).map Prod.fst).mapM (Table.plainRows width).call t = _
          rw [List.mapM_cons, bind_of_ok plain, bind_of_ok plainRest, pure_apply]
        · intro report there
          rcases List.mem_cons.1 there with rfl | there
          · nofun
          · exact failed report there
      · obtain ⟨answered, failed⟩ := ih later shows' holds
        rw [play, ran]
        refine ⟨answered, ?_⟩
        intro report there
        rcases List.mem_cons.1 there with rfl | there
        · rintro e' ⟨⟩
          exact ⟨refused, shows'.2.1.trans shows.2.1.symm, shows'.2.2.trans shows.2.2.symm⟩
        · exact failed report there
    | other key name value =>
      have outside := abroad key name value List.mem_cons_self
      refine ih later (x := { x with table := changed h.session.table key name value }) ⟨shows.1, rfl, shows.2.2⟩ ?_
      refine holds.others fun k n => ?_
      rw [get_changed outside, shows.2.1]

/-- **A store in a shared table is a plain table, whatever is refused.** If at first the table has no row of the space and
others write to none: the calls of a run that end well are answered as by the plain table that runs only these. A call that
fails does so for the reason that the session gave, and leaves the shared table and what the store remembers as they were. -/
theorem successes_match (settings : WideSettings) (refuse : Nat → Option Error) (width : Nat) (session : SessionTable)
    (up : session.down = none) (clear : ∀ k n, session.table.get (spaceHead settings.space ++ k) n = none)
    (steps : List Step)
    (abroad : ∀ key name value, .other key name value ∈ steps → ¬ (spaceHead settings.space).toList <+: key.toList) :
    (∃ plain u, ((successes (play settings refuse steps { session })).map Prod.fst).mapM (Table.plainRows width).call
        .empty = (.ok plain, u) ∧
      List.Forall₂ Answer.Matches ((successes (play settings refuse steps { session })).map Prod.snd) plain) ∧
    ∀ r ∈ play settings refuse steps { session }, ∀ e, r.result = .error e → refuse r.before.asked = some e ∧
      r.after.session.table = r.before.session.table ∧ r.after.known = r.before.known :=
  play_matches refuse width steps abroad (x := ⟨session.table, ∅⟩) ⟨up, rfl, rfl⟩
    ⟨fun k c => by rw [Table.get_empty, clear], fun there => absurd there Std.ExtTreeSet.not_mem_empty⟩

/-- beside a row of the space `b`: the row `r` is put, seen, and emptied again; a refused look for it does not matter -/
theorem successes_match_emptied :
    let settings : WideSettings := { space := "a" }
    let refuse : Nat → Option Error := fun n => if n = 2 then some (.backend "down") else none
    let session : SessionTable := { table := Table.empty.put "b/r" 0 [9] }
    let steps : List Step := [.call (.put "r" (-8) [1]), .call (.hasKey "r"), .call (.deleteColumn "r" (-8)),
      .call (.hasKey "r"), .other "b/s" 1 (some [7]), .call (.hasKey "r"), .call .keys]
    session.down = none ∧ (∀ k n, session.table.get (spaceHead settings.space ++ k) n = none) ∧
      (∀ key name value, Step.other key name value ∈ steps → ¬ (spaceHead settings.space).toList <+: key.toList) ∧
      (play settings refuse steps { session }).map Report.result = [.ok .done, .ok (.flag true), .ok .done,
        .error (.backend "down"), .ok (.flag false), .ok (.keys [])] ∧
      (∃ plain u, ((successes (play settings refuse steps { session })).map Prod.fst).mapM (Table.plainRows 4).call
          .empty = (.ok plain, u) ∧
        List.Forall₂ Answer.Matches ((successes (play settings refuse steps { session })).map Prod.snd) plain) ∧
      ∀ r ∈ play settings refuse steps { session }, ∀ e, r.result = .error e → refuse r.before.asked = some e ∧
        r.after.session.table = r.before.session.table ∧ r.after.known = r.before.known := by
  intro settings refuse session steps
  have clear : ∀ k n, session.table.get (spaceHead settings.space ++ k) n = none := fun k n => by
    refine (Table.get_put ..).trans ((if_neg fun e => ?_).trans (Table.get_empty ..))
    have begins := congrArg (fun s : String => s.toList.head?) e.1
    simp [spaceHead, settings] at begins
  have abroad : ∀ key name value, Step.other key name value ∈ steps →
      ¬ (spaceHead settings.space).toList <+: key.toList := fun key name value there => by
    obtain ⟨rfl, _⟩ : key = "b/s" ∧ _ := by simpa [steps] using there
    decide
  refine ⟨rfl, clear, abroad, by decide +kernel, ?_⟩
  exact successes_match settings refuse 4 session rfl clear steps abroad

end Tenant

end RowFiles
