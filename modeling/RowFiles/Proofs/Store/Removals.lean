/-
What the removal of one cell does to a write-back cache and the table beneath it.

A cache that is asked to remove the only cell of a row that it holds deletes the whole row beneath, cells that were never
cached among them. Otherwise it removes one cell. Which of both it does depends on what happens to be cached.

- `deleteColumn_stands`: either way the cache and the table stand for a plain table in which the removal has been made.
- `act_settles`, `after_keeps`: so does every step of a host, and what each step keeps of the plain table is kept by a run.
- `removal_is_exact`: after a removal the cell is gone until it is put again, other rows are as they were, and so is the
  rest of the row, unless the cell was the only one cached of it: then nothing of the row is left anywhere.
-/
import RowFiles.Proofs.Store.Outages

namespace RowFiles

open Run

/-- the cell is cached, and it is the only one of its row that is -/
def CacheState.Sole (x : CacheState) (a : Address Column) : Prop :=
  ∀ c, (x.value? ⟨a.key, c⟩).isSome ↔ c = a.column

theorem CacheState.isLastInRow_iff (x : CacheState) (a : Address Column) : x.isLastInRow a = true ↔ x.Sole a := by
  rw [isLastInRow, decide_eq_true_iff]
  constructor
  · intro columns c
    have there : c ∈ x.table.columns a.key ↔ (x.value? ⟨a.key, c⟩).isSome := by
      simp only [Table.columns, List.mem_map, Prod.exists, Table.mem_row, Option.isSome_iff_exists, value?]
      simp
    rw [← there, columns, List.mem_singleton]
  · intro sole
    obtain ⟨v, found⟩ := Option.isSome_iff_exists.1 ((sole a.column).2 rfl)
    have row : x.table.row a.key = [(a.column, v)] := by
      refine Table.row_eq (List.pairwise_singleton ..) fun c u => ?_
      rw [List.mem_singleton, Prod.mk.injEq]
      constructor
      · rintro ⟨rfl, rfl⟩
        exact found
      · intro cached
        obtain rfl := (sole c).1 (Option.isSome_iff_exists.2 ⟨u, cached⟩)
        exact ⟨rfl, Option.some.inj (cached.symm.trans found)⟩
    rw [Table.columns, row]
    rfl

/-- the step puts and deletes nothing -/
def Host.Step.Quiet : Host.Step → Prop
  | .call (.put ..) | .call (.delete _) | .call (.deleteColumn ..) => False
  | .call (.get ..) | .call (.hasKey _) | .call (.values _) | .call .keys | .call .sync => True
  | .flush _ | .evict | .clock _ => True

namespace Frail

variable {settings : CacheSettings} {width : Nat} {refuse : Nat → Option Error}
  {walk : Nat → List (Address Column) → List (Address Column)}

/-! ## Steps and the plain table -/

/-- the plain table after a step, which may remove a whole row if only one cell of it is cached -/
def settled (width : Nat) (h : Frail) (p : Table Column) : Host.Step → Table Column
  | .call (.deleteColumn k col) => if h.cache.isLastInRow ⟨k, col⟩ then p.delete k else p.deleteColumn k col
  | step => plain width p step

theorem settled_of_whole {h : Frail} {p : Table Column} {step : Host.Step}
    (whole : ∀ k col, step ≠ .call (.deleteColumn k col)) : settled width h p step = plain width p step := by
  cases step with
  | call q =>
    cases q with
    | deleteColumn k col => exact absurd rfl (whole k col)
    | _ => rfl
  | _ => rfl

theorem settled_of_quiet {h : Frail} {p : Table Column} {step : Host.Step} (quiet : step.Quiet) :
    settled width h p step = p := by
  cases step with
  | call q =>
    cases q with
    | put | delete | deleteColumn => exact quiet.elim
    | _ => rfl
  | _ => rfl

/-- a cell that is not there comes in by a put of it, and by nothing else -/
theorem get_settled {h : Frail} {p : Table Column} {step : Host.Step} {k : Key} {col : Column}
    (gone : p.get k col = none) (other : ∀ v, step ≠ .call (.put k col v)) : (settled width h p step).get k col = none := by
  cases step with
  | call q =>
    cases q with
    | put k' col' v =>
      have elsewhere : ¬ (k' = k ∧ col' = col) := fun ⟨key, column⟩ => other v (by rw [key, column])
      exact (Table.get_put ..).trans ((if_neg elsewhere).trans gone)
    | delete k' =>
      have cleared : settled width h p (.call (.delete k')) = p.delete k' :=
        congrArg Prod.snd (Table.plainRows_delete width k' p)
      rw [cleared, Table.get_delete, gone, ite_self]
    | deleteColumn k' col' =>
      rw [settled]
      split_ifs
      · rw [Table.get_delete, gone, ite_self]
      · rw [Table.get_deleteColumn, gone, ite_self]
    | get | hasKey | values | keys | sync => exact gone
  | _ => exact gone

section

variable (perm : ∀ n as, (walk n as).Perm as) {h : Frail} {p : Table Column}

include perm

variable (settings width) in
/-- **A removal** ends well, and removes the cell or its whole row from the plain table. -/
theorem deleteColumn_stands (stands : Plain refuse False h p) (k : Key) (col : Column) :
    ∃ h', (cacheOver settings width refuse walk).deleteColumn k col h = (.ok (), h') ∧
      Plain refuse False h' (settled width h p (.call (.deleteColumn k col))) := by
  have laws := cacheOver_laws settings width refuse False perm
  have trims (x : CacheState) (r : Unit) : (cacheOver settings width refuse walk).inner.Trims
      (fun h t => Viewed refuse False h ⟨x, t, r⟩) (Refusable False) :=
    (Table.rows_trim (fun _ _ hs => hs.2.1) (fun _ _ _ hs => ⟨hs.1, rfl, hs.2.2⟩) width _).guarded
      fun q => ask_tries q x
  obtain ⟨v, shown, coherent⟩ := stands
  have removes := laws.deleteColumn trims k col coherent (not_refusable nofun) (not_refusable nofun)
  obtain ⟨_, h', w, run, shown', stands'⟩ := removes.run shown
  rw [← shown.1] at stands'
  exact ⟨h', run, w, shown', stands'⟩

/-- **One step**: the cache and the table stand for the plain table after it. -/
theorem act_settles (stands : Plain refuse False h p) (step : Host.Step) :
    Plain refuse False (act settings width refuse walk step h).2 (settled width h p step) := by
  by_cases removal : ∃ k col, step = .call (.deleteColumn k col)
  · obtain ⟨k, col, rfl⟩ := removal
    obtain ⟨h', run, stands'⟩ := deleteColumn_stands settings width perm stands k col
    have same : (act settings width refuse walk (.call (.deleteColumn k col)) h).2 = h' := by
      have call : (cacheOver settings width refuse walk).rows.call (.deleteColumn k col) h = (.ok .done, h') :=
        bind_of_ok run
      rw [act, bind_of_ok call]
      rfl
    rw [same]
    exact stands'
  · have whole : ∀ k col, step ≠ .call (.deleteColumn k col) := fun k col e => removal ⟨k, col, e⟩
    have goes : Ends (Plain refuse False) (act settings width refuse walk step) p fun _ u => u = plain width p step :=
      act_stands perm whole p
    obtain ⟨_, stands', rfl⟩ := goes h stands
    rw [settled_of_whole whole]
    exact stands'

/-- **A run** keeps of the plain table what each of its steps keeps. -/
theorem after_keeps {I : Table Column → Prop} (steps : List Host.Step)
    (keeps : ∀ step ∈ steps, ∀ h p, I p → I (settled width h p step)) (stands : Plain refuse False h p) (start : I p) :
    ∃ q, Plain refuse False (after settings width refuse walk steps h) q ∧ I q := by
  induction steps generalizing h p with
  | nil => exact ⟨p, stands, start⟩
  | cons step steps ih =>
    exact ih (fun s later => keeps s (List.mem_cons_of_mem step later)) (act_settles perm stands step)
      (keeps step List.mem_cons_self h p start)

variable (settings width) in
/-- steps that put and delete nothing keep the plain table -/
theorem after_quiet (steps : List Host.Step) (quiet : ∀ step ∈ steps, step.Quiet) (stands : Plain refuse False h p) :
    Plain refuse False (after settings width refuse walk steps h) p := by
  have keeps (step : Host.Step) (here : step ∈ steps) (h : Frail) (q : Table Column) (same : q = p) :
      settled width h q step = p := by
    rw [settled_of_quiet (quiet step here), same]
  obtain ⟨q, stands', same⟩ := after_keeps (I := (· = p)) perm steps keeps stands rfl
  exact same ▸ stands'

end

/-! ## What a removal leaves -/

variable (settings width refuse walk) in
/-- a get of a cell answers the same on both hosts -/
def Alike (h g : Frail) (k : Key) (col : Column) : Prop :=
  ∃ v, ((cacheOver settings width refuse walk).get k col h).1 = .ok v ∧
    ((cacheOver settings width refuse walk).get k col g).1 = .ok v

/-- nothing of a row is cached, marked or in the table -/
structure Bare (h : Frail) (k : Key) : Prop where
  cached : ∀ col, h.cache.value? ⟨k, col⟩ = none
  marks : ∀ a ∈ h.cache.marks, a.key ≠ k
  stored : ∀ col, h.table.get k col = none

theorem Plain.bare {h : Frail} {p : Table Column} (stands : Plain refuse False h p) {k : Key}
    (none : ∀ col, p.get k col = none) : h.Bare k := by
  obtain ⟨v, ⟨cache, table, _⟩, ⟨kept, shadow, clean⟩, _⟩ := stands
  have cached (col : Column) : v.held.value? ⟨k, col⟩ = .none := by
    cases found : v.held.value? ⟨k, col⟩ with
    | none => rfl
    | some u =>
      have there := shadow _ u found
      rw [none] at there
      cases there
  have marks (a : Address Column) (marked : a ∈ v.held.marks) : a.key ≠ k := by
    rintro rfl
    obtain ⟨u, found⟩ := kept a (.inl marked)
    rw [cached] at found
    cases found
  refine ⟨by rw [cache]; exact cached, by rw [cache]; exact marks, fun col => ?_⟩
  rw [table, clean ⟨k, col⟩ (fun marked => marks _ marked rfl) List.not_mem_nil, none]

theorem Plain.get_answers (perm : ∀ n as, (walk n as).Perm as) {h : Frail} {p : Table Column}
    (stands : Plain refuse False h p) (k : Key) (col : Column) :
    ((cacheOver settings width refuse walk).get k col h).1 = .ok (p.get k col) := by
  have intact : Intact settings width refuse walk h p := stands.intact perm
  obtain ⟨h', answered⟩ := intact.read k col
  rw [answered]

variable (settings width refuse walk) in
/-- what the removal of a cell leaves of a host `h` at some later time -/
structure Removed (h : Frail) (k : Key) (col : Column) (g : Frail) : Prop where
  rows : ∀ k' ≠ k, ∀ col', Alike settings width refuse walk h g k' col'
  columns : ¬ h.cache.Sole ⟨k, col⟩ → ∀ col' ≠ col, Alike settings width refuse walk h g k col'
  row : h.cache.Sole ⟨k, col⟩ → g.Bare k

variable (settings width refuse) in
/-- **The removal of one cell is exact.** Take a host after any run, and remove any cell. The removal ends well, and until
the cell is put again a get of it finds nothing, whatever else is done meanwhile. As long as nothing is put or deleted,
whatever is read, flushed or evicted, gets of other rows answer as before the removal. So do gets of other cells of the row,
unless the cell was the only one cached of it. Then the row is empty in the cache and in the table, and nothing of it is
left to be written. -/
theorem removal_is_exact (perm : ∀ n as, (walk n as).Perm as) (t : Table Column) (now : UInt64) (steps : List Host.Step)
    (k : Key) (col : Column) :
    let h := after settings width refuse walk steps { table := t, clock := now }
    ∃ h', (cacheOver settings width refuse walk).deleteColumn k col h = (.ok (), h') ∧
      (∀ later, (∀ v, .call (.put k col v) ∉ later) →
        ((cacheOver settings width refuse walk).get k col (after settings width refuse walk later h')).1 = .ok none) ∧
      ∀ later, (∀ step ∈ later, step.Quiet) →
        Removed settings width refuse walk h k col (after settings width refuse walk later h') := by
  intro h
  have start : Plain refuse False { table := t, clock := now } t := ⟨⟨{}, t, ()⟩, ⟨rfl, rfl, nofun⟩, .new t, rfl⟩
  obtain ⟨p, stands, _⟩ := after_keeps (I := fun _ => True) perm steps (fun _ _ _ _ _ => trivial) start trivial
  obtain ⟨h', run, stands'⟩ := deleteColumn_stands settings width perm stands k col
  refine ⟨h', run, fun later absent => ?_, fun later quiet => ?_⟩
  · have gone : (settled width h p (.call (.deleteColumn k col))).get k col = none := by
      rw [settled]
      split_ifs
      · rw [Table.get_delete, if_pos rfl]
      · rw [Table.get_deleteColumn, if_pos ⟨rfl, rfl⟩]
    obtain ⟨q, stands'', none⟩ := after_keeps (I := fun q => q.get k col = none) perm later
      (fun step here _ _ gone => get_settled gone fun v e => absent v (e ▸ here)) stands' gone
    rw [stands''.get_answers perm, none]
  · have still := after_quiet settings width perm later quiet stands'
    have alike (k' : Key) (col' : Column)
        (same : (settled width h p (.call (.deleteColumn k col))).get k' col' = p.get k' col') :
        Alike settings width refuse walk h (after settings width refuse walk later h') k' col' :=
      ⟨p.get k' col', stands.get_answers perm k' col', by rw [still.get_answers perm, same]⟩
    constructor
    · intro k' other col'
      apply alike
      rw [settled]
      split_ifs
      · rw [Table.get_delete, if_neg (Ne.symm other)]
      · rw [Table.get_deleteColumn, if_neg fun here => other here.1.symm]
    · intro more col' other
      apply alike
      rw [settled, if_neg (mt (h.cache.isLastInRow_iff _).1 more), Table.get_deleteColumn,
        if_neg fun here => other here.2.symm]
    · intro sole
      rw [settled, if_pos ((h.cache.isLastInRow_iff _).2 sole)] at still
      exact still.bare fun col' => by rw [Table.get_delete, if_pos rfl]

/-- first a cell is removed that is not cached, then the only one that is: with it goes one that has never been cached -/
theorem removal_is_exact_last :
    let t := ((Table.empty.put "k" 0 [1]).put "k" 1 [2]).put "l" 0 [3]
    let h := after {} 4 (fun _ => none) (fun _ => List.reverse)
      [.call (.put "k" 2 [4]), .call (.deleteColumn "k" 0)] { table := t, clock := 5 }
    h.cache.marks.toList = [⟨"k", 2⟩] ∧ h.table.get "k" 1 = some [2] ∧
      ∃ h', (cacheOver {} 4 (fun _ => none) fun _ => List.reverse).deleteColumn "k" 2 h = (.ok (), h') ∧
        h'.Bare "k" ∧ Alike {} 4 (fun _ => none) (fun _ => List.reverse) h h' "l" 0 := by
  intro t h
  have sole : h.cache.Sole ⟨"k", 2⟩ := (h.cache.isLastInRow_iff _).1 (by decide +kernel)
  obtain ⟨h', run, _, removed⟩ := removal_is_exact {} 4 (fun _ => none) (fun _ as => List.reverse_perm as) t 5
    [.call (.put "k" 2 [4]), .call (.deleteColumn "k" 0)] "k" 2
  have now := removed [] nofun
  exact ⟨by decide +kernel, by decide +kernel, h', run, now.row sole, now.rows "l" (by decide) 0⟩

end Frail

end RowFiles
