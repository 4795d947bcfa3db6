/-
Which cells a pass of evictions drops.

Under a policy of age a cache takes down when each cell was last accessed: read and found, or put, whichever the policy
tracks. These times are kept apart from the cells, and cells come and go in many ways.

- `Cache.Clocked.call_accesses` and the others: a call takes down the time of the cell that it accesses. Every other cell
  keeps its time, or loses it and is no longer cached.
- `Frail.times_told`: so after any run, the times are those of the latest accesses to cells that have been cached since.
- `Frail.evictions_exact`: a pass of evictions drops exactly the clean cells that have not been accessed since they came
  into the cache, or not for as long as the age. All else stays as it was.
-/
import Mathlib.Data.List.Induction
import RowFiles.Proofs.Store.Footprints
import RowFiles.Proofs.Store.Outages

namespace RowFiles

open Run

/-! ## What a policy tracks -/

namespace Eviction

def tracksReads : Eviction → Bool
  | .lastRead _ => true
  | _ => false

def tracksWrites : Eviction → Bool
  | .lastWrite _ => true
  | _ => false

/-- the call, which ended with an outcome, is an access to the cell that is tracked: a read that found it, or a put -/
def Tracks (e : Eviction) (o : Except Error Answer) : Call → Address Column → Prop
  | .get k col, a => e.tracksReads = true ∧ a = ⟨k, col⟩ ∧ ∃ v, o = .ok (.cell (some v))
  | .put k col _, a => e.tracksWrites = true ∧ a = ⟨k, col⟩
  | _, _ => False

variable (e : Eviction) (now : UInt64) (a b : Address Column) (times : AccessTimes)

theorem getElem?_noteGet :
    (e.noteGet now a times)[b]? = if e.tracksReads = true ∧ b = a then some now else times[b]? := by
  cases e <;> simp [noteGet, tracksReads, Std.ExtTreeMap.getElem?_insert, @eq_comm _ b a]

theorem getElem?_notePut :
    (e.notePut now a times)[b]? = if e.tracksWrites = true ∧ b = a then some now else times[b]? := by
  cases e <;> simp [notePut, tracksWrites, Std.ExtTreeMap.getElem?_insert, @eq_comm _ b a]

/-- a cell may go if its latest access, if any is known, is at least as long ago as the age keeps of a duration -/
theorem expired_iff {age : Duration} :
    expired age now a times = true ↔ ∀ t, times[a]? = some t → age.kept ≤ now.toNat - t.toNat := by
  rw [expired]
  cases times[a]? with
  | none => simp
  | some t => simp [age_le_elapsed_iff_kept]

end Eviction

/-! ## What steps of a cache do to the times of accesses -/

namespace CacheState

/-- the cell has gone with its time, or it stays if it was there, and its time is as before -/
def Untouched (x y : CacheState) (a : Address Column) : Prop :=
  y.value? a = none ∧ y.times[a]? = none ∨
    ((x.value? a).isSome → (y.value? a).isSome) ∧ y.times[a]? = x.times[a]?

/-- from `x` to `y` the cells of which `P` holds are accessed at a time, and no others -/
structure Accesses (x : CacheState) (P : Address Column → Prop) (time : UInt64) (y : CacheState) : Prop where
  touched : ∀ a, P a → (y.value? a).isSome ∧ y.times[a]? = some time
  others : ∀ a, ¬ P a → x.Untouched y a

/-- no cell is accessed -/
def Nothing (_ : Address Column) : Prop := False

variable {x y z : CacheState} {P : Address Column → Prop} {time : UInt64}

theorem Accesses.of_same (table : y.table = x.table) (times : y.times = x.times) : x.Accesses Nothing time y :=
  ⟨fun _ h => h.elim, fun a _ => .inr ⟨by rw [value?, value?, table]; exact id, by rw [times]⟩⟩

theorem Accesses.congr {Q : Address Column → Prop} (h : x.Accesses P time y) (same : ∀ a, Q a ↔ P a) :
    x.Accesses Q time y :=
  ⟨fun a here => h.touched a ((same a).1 here), fun a other => h.others a (mt (same a).2 other)⟩

/-- cells that are taken over beforehand are not accessed by that -/
theorem Accesses.start (h : y.Accesses P time z) (cells : ∀ a, (x.value? a).isSome → (y.value? a).isSome)
    (times : y.times = x.times) : x.Accesses P time z := by
  refine ⟨h.touched, fun a other => ?_⟩
  rcases h.others a other with gone | ⟨stays, same⟩
  · exact .inl gone
  · exact .inr ⟨fun there => stays (cells a there), by rw [same, times]⟩

/-- cells and times are all that matters of what is left -/
theorem Accesses.stop (h : x.Accesses P time y) (table : z.table = y.table) (times : z.times = y.times) :
    x.Accesses P time z := by
  refine ⟨fun a here => ?_, fun a other => ?_⟩
  · have touched := h.touched a here
    rw [value?, ← table, ← times] at touched
    exact touched
  · have untouched := h.others a other
    rw [Untouched, value?, value?, ← table, ← times] at untouched
    exact untouched

variable (x)

theorem isSome_value?_iff (a : Address Column) : (x.value? a).isSome ↔ x.table.cells.contains a = true := by
  rw [value?, Table.get]
  simp

/-- cells that are dropped take their times with them; of cells that are not there no time is dropped -/
theorem times_drop (out : Address Column → Bool) (a : Address Column) :
    (x.drop out).times[a]? = if out a = true ∧ (x.value? a).isSome then none else x.times[a]? := by
  simp only [drop, isSome_value?_iff, Std.ExtTreeMap.getElem?_filter']
  split_ifs with gone
  · cases x.times[a]? <;> simp [Option.filter, gone]
  · rw [← Bool.and_eq_true, Bool.not_eq_true] at gone
    cases x.times[a]? <;> simp [Option.filter, gone]

theorem drop_accesses (out : Address Column → Bool) : x.Accesses Nothing time (x.drop out) := by
  refine ⟨fun _ h => h.elim, fun a _ => ?_⟩
  rw [Untouched, value?_drop, times_drop]
  by_cases dropped : out a = true
  · cases cached : x.value? a <;> simp [dropped]
  · simp [dropped]

theorem forgetCell_accesses (a : Address Column) : x.Accesses Nothing time (x.forgetCell a) := by
  refine ⟨fun _ h => h.elim, fun b _ => ?_⟩
  have times : (x.forgetCell a).times[b]? = if a = b then none else x.times[b]? := by
    simp [forgetCell, Std.ExtTreeMap.getElem?_erase]
  rw [Untouched, value?_forgetCell, times]
  by_cases here : a = b <;> simp [here]

theorem put_accesses (e : Eviction) (a : Address Column) (v : Bytes) :
    x.Accesses (fun b => e.tracksWrites = true ∧ b = a) time (x.put e time a v) := by
  have times (b : Address Column) := e.getElem?_notePut time a b x.times
  refine ⟨fun b here => ⟨?_, (times b).trans (if_pos here)⟩, fun b other => .inr ⟨?_, (times b).trans (if_neg other)⟩⟩
  · rw [value?_put, if_pos here.2.symm]
    rfl
  · rw [value?_put]
    split_ifs <;> simp

/-- a cached cell is read -/
theorem noteGet_accesses (e : Eviction) (a : Address Column) (cached : (x.value? a).isSome) :
    x.Accesses (fun b => e.tracksReads = true ∧ b = a) time (x.noteGet e time a) := by
  have times (b : Address Column) := e.getElem?_noteGet time a b x.times
  refine ⟨fun b here => ⟨?_, (times b).trans (if_pos here)⟩, fun b other => .inr ⟨id, (times b).trans (if_neg other)⟩⟩
  rw [here.2]
  exact cached

/-- a cell that is taken over from beneath is there, beside those that were -/
theorem isSome_fill (a b : Address Column) (v : Bytes) :
    ((x.fill a v).value? b).isSome ↔ a = b ∨ (x.value? b).isSome := by
  rw [fill]
  cases there : x.value? a with
  | some u =>
    refine ⟨.inr, fun h => ?_⟩
    rcases h with rfl | h
    · rw [there]
      rfl
    · exact h
  | none =>
    rw [value?, Table.get_put_at]
    split_ifs with here <;> simp [here, value?]

theorem times_fill (a : Address Column) (v : Bytes) : (x.fill a v).times = x.times := by
  rw [fill]
  cases x.value? a <;> rfl

/-- the cells that a pass of evictions takes -/
def evicted (e : Eviction) (now : UInt64) : List (Address Column) :=
  (x.table.toList.filter fun p => x.evictable e now p.1).map Prod.fst

theorem length_evicted (e : Eviction) (now : UInt64) : (x.evicted e now).length = x.evictCount e now := List.length_map ..

theorem nodup_evicted (e : Eviction) (now : UInt64) : (x.evicted e now).Nodup := by
  rw [evicted, List.Nodup, List.pairwise_map]
  refine List.Pairwise.imp (fun {p q} h same => ?_) (Std.ExtTreeMap.ordered_keys_toList.filter _)
  rw [same, Std.ReflOrd.compare_self] at h
  cases h

theorem mem_evicted {e : Eviction} {now : UInt64} {a : Address Column} :
    a ∈ x.evicted e now ↔ (x.value? a).isSome ∧ x.evictable e now a = true := by
  rw [evicted, List.mem_map, value?, Option.isSome_iff_exists]
  constructor
  · rintro ⟨⟨b, v⟩, there, rfl⟩
    rw [List.mem_filter] at there
    exact ⟨⟨v, Table.mem_toList.1 there.1⟩, there.2⟩
  · rintro ⟨⟨v, there⟩, out⟩
    exact ⟨(a, v), List.mem_filter.2 ⟨Table.mem_toList.2 there, out⟩, rfl⟩

theorem value?_evict (e : Eviction) (now : UInt64) (a : Address Column) :
    (x.evict e now).value? a = if a ∈ x.evicted e now then none else x.value? a := by
  refine (x.value?_drop _ a).trans ?_
  simp only [mem_evicted]
  cases x.value? a <;> simp

end CacheState

/-! ## What calls access -/

section Calls

variable {σ : Type}

/-- what a cache builds on, where the time on the clock is shown -/
structure Cache.Clocked (c : Cache (Run σ)) (R : σ → Layer CacheState UInt64 → Prop)
    (scan : List Bytes → List Bytes → Prop) (failing : Call → Prop) : Prop extends c.Laws R scan failing where
  time : ∀ v, Yields R c.now v fun t w => t = v.rest ∧ w = v

/-- from `v` to `w` the cells of which `P` holds are accessed, and no time passes -/
def Layer.Accesses (v : Layer CacheState UInt64) (P : Address Column → Prop) (w : Layer CacheState UInt64) : Prop :=
  v.held.Accesses P v.rest w.held ∧ w.rest = v.rest

namespace Cache.Clocked

variable {c : Cache (Run σ)} {R : σ → Layer CacheState UInt64 → Prop} {scan : List Bytes → List Bytes → Prop}
  {failing : Call → Prop} {v : Layer CacheState UInt64}

open CacheState

/-- a call of the rows beneath changes nothing of the cache -/
theorem beneath_keeps {α : Type} {x : Run σ α} {may : Prop} {P : α → Table Column → Prop}
    (h : Tries (fun s t => R s { v with beneath := t }) x v.beneath may P) :
    Ends R x v fun _ w => w.held = v.held ∧ w.rest = v.rest := by
  refine Ends.mono (Layered.beneath h) fun o w hw => ?_
  rcases hw with ⟨_, _, _, _, rfl⟩ | ⟨_, _, rfl⟩
  · exact ⟨rfl, rfl⟩
  · exact ⟨rfl, rfl⟩

/-- a flush keeps cells and times, and then drops the clean cells if it is to empty the cache -/
theorem flush_keeps (laws : c.Clocked R scan failing) (empty : Bool) (v : Layer CacheState UInt64) :
    Ends R (c.flush empty) v fun _ w => w.rest = v.rest ∧ ∃ x, x.table = v.held.table ∧ x.times = v.held.times ∧
      (w.held = x ∨ empty = true ∧ w.held = x.dropClean) := by
  refine (laws.read v).next ?_
  refine (laws.write _ _).step ?_
  refine (laws.order _ _).ends ?_
  intro as _ hw
  obtain ⟨_, rfl⟩ := hw
  refine Ends.bind (Ends.mono (laws.writeOut_keeps as _) fun o w hw => ?_)
  obtain ⟨table, times, rest⟩ := hw
  cases o with
  | error e => exact .inr ⟨e, rfl, rest, w.held, table, times, .inl rfl⟩
  | ok =>
    refine .inl ⟨(), rfl, ?_⟩
    cases empty with
    | false => exact ends_pure () ⟨rest, w.held, table, times, .inl rfl⟩
    | true =>
      refine Ends.mono (laws.modify _ w) fun _ _ hw => ?_
      obtain ⟨_, _, rfl⟩ := hw
      exact ⟨rest, w.held, table, times, .inr ⟨rfl, rfl⟩⟩

theorem flush_accesses (laws : c.Clocked R scan failing) (empty : Bool) (v : Layer CacheState UInt64) :
    Ends R (c.flush empty) v fun _ w => v.Accesses Nothing w := by
  refine Ends.mono (laws.flush_keeps empty v) fun _ w hw => ?_
  obtain ⟨rest, x, table, times, held | ⟨_, held⟩⟩ := hw
  · exact ⟨held ▸ .of_same table times, rest⟩
  · exact ⟨held ▸ (x.drop_accesses _).start (fun a => by rw [value?, value?, table]; exact id) times, rest⟩

theorem put_accesses (laws : c.Clocked R scan failing) (k : Key) (col : Column) (u : Bytes) (v : Layer CacheState UInt64) :
    Ends R (c.put k col u) v fun _ w =>
      v.Accesses (fun a => c.settings.eviction.tracksWrites = true ∧ a = ⟨k, col⟩) w := by
  refine (laws.time v).next ?_
  refine (laws.modify _ _).step ?_
  have taken : v.held.Accesses _ v.rest _ := v.held.put_accesses c.settings.eviction ⟨k, col⟩ u
  split_ifs with auto
  · refine Ends.mono (laws.flush_keeps false _) fun _ w hw => ?_
    obtain ⟨rest, x, table, times, held | ⟨no, _⟩⟩ := hw
    · exact ⟨held ▸ taken.stop table times, rest⟩
    · cases no
  · exact ends_pure () ⟨taken, rfl⟩

/-- a cell that is there is read and found -/
theorem getCached_accesses (laws : c.Clocked R scan failing) (a : Address Column) (v : Layer CacheState UInt64)
    (cached : (v.held.value? a).isSome) :
    Yields R (c.getCached a) v fun u w => u.isSome ∧
      v.Accesses (fun b => c.settings.eviction.tracksReads = true ∧ b = a) w := by
  refine (laws.read v).next ?_
  refine (laws.time v).next ?_
  refine (laws.modify _ _).step ?_
  exact yields_pure _ ⟨cached, v.held.noteGet_accesses c.settings.eviction a cached, rfl⟩

theorem get_accesses (laws : c.Clocked R scan failing) (k : Key) (col : Column) (v : Layer CacheState UInt64) :
    Ends R (c.get k col) v fun o w =>
      v.Accesses (fun a => c.settings.eviction.tracksReads = true ∧ a = ⟨k, col⟩ ∧ ∃ u, o = .ok (some u)) w := by
  refine (laws.read v).next ?_
  cases hit : v.held.value? ⟨k, col⟩ with
  | some u =>
    refine Ends.mono (laws.getCached_accesses ⟨k, col⟩ v (by rw [hit]; rfl)) fun o w hw => ?_
    obtain ⟨_, rfl, found, accesses, rest⟩ := hw
    obtain ⟨u, rfl⟩ := Option.isSome_iff_exists.1 found
    exact ⟨accesses.congr (by simp), rest⟩
  | none =>
    refine Ends.bind (Ends.mono (Layered.beneath ((laws.inner _ _).get k col _)) fun o w hw => ?_)
    rcases hw with ⟨_, rfl, t, ⟨rfl, rfl⟩, rfl⟩ | ⟨_, ⟨e, rfl⟩, rfl⟩
    · refine .inl ⟨_, rfl, ?_⟩
      cases v.beneath.get k col with
      | none => exact ends_pure none ⟨(Accesses.of_same rfl rfl).congr (by simp [Nothing]), rfl⟩
      | some u =>
        refine (laws.modify _ _).step ?_
        have filled (b : Address Column) := v.held.isSome_fill ⟨k, col⟩ b u
        refine Ends.mono (laws.getCached_accesses ⟨k, col⟩ _ ((filled _).2 (.inl rfl))) fun o w hw => ?_
        obtain ⟨_, rfl, found, accesses, rest⟩ := hw
        obtain ⟨u, rfl⟩ := Option.isSome_iff_exists.1 found
        exact ⟨(accesses.congr (by simp)).start (fun b there => (filled b).2 (.inr there)) (v.held.times_fill _ _), rest⟩
    · exact .inr ⟨e, rfl, (Accesses.of_same rfl rfl).congr (by simp [Nothing]), rfl⟩

theorem delete_accesses (laws : c.Clocked R scan failing) (k : Key) (v : Layer CacheState UInt64) :
    Ends R (c.delete k) v fun _ w => v.Accesses Nothing w := by
  refine (laws.modify _ v).step ?_
  refine Ends.mono (beneath_keeps ((laws.inner _ _).delete k _)) fun _ w hw => ?_
  exact ⟨hw.1 ▸ (v.held.drop_accesses _).stop rfl rfl, hw.2⟩

theorem deleteColumn_accesses (laws : c.Clocked R scan failing)
    (trims : ∀ x r, c.inner.Trims (fun s t => R s ⟨x, t, r⟩) failing) (k : Key) (col : Column)
    (v : Layer CacheState UInt64) : Ends R (c.deleteColumn k col) v fun _ w => v.Accesses Nothing w := by
  refine (laws.read v).next ?_
  refine (laws.write _ _).step ?_
  have forgotten : v.held.Accesses _ v.rest _ := v.held.forgetCell_accesses ⟨k, col⟩
  split_ifs
  · refine (laws.modify _ _).step ?_
    refine Ends.mono (beneath_keeps ((laws.inner _ _).delete k _)) fun _ w hw => ?_
    exact ⟨hw.1 ▸ forgotten.stop rfl rfl, hw.2⟩
  · refine (laws.modify _ _).step ?_
    refine Ends.mono (beneath_keeps (trims _ _ k col _)) fun _ w hw => ?_
    exact ⟨hw.1 ▸ forgotten.stop rfl rfl, hw.2⟩

theorem hasKey_accesses (laws : c.Clocked R scan failing) (k : Key) (v : Layer CacheState UInt64) :
    Ends R (c.rows.hasKey k) v fun _ w => v.Accesses Nothing w := by
  refine (laws.read v).next ?_
  split_ifs
  · exact ends_pure true ⟨.of_same rfl rfl, rfl⟩
  · refine Ends.mono (beneath_keeps ((laws.inner _ _).hasKey k _)) fun _ w hw => ?_
    exact ⟨hw.1 ▸ .of_same rfl rfl, hw.2⟩

theorem values_accesses (laws : c.Clocked R scan failing) (k : Key) (v : Layer CacheState UInt64) :
    Ends R (c.rows.values k) v fun _ w => v.Accesses Nothing w := by
  have written : Ends R (c.flushRow k) v fun _ w => v.Accesses Nothing w := by
    refine (laws.read v).next ?_
    refine (laws.write _ _).step ?_
    refine (laws.order _ _).ends ?_
    intro as _ hw
    obtain ⟨_, rfl⟩ := hw
    exact Ends.mono (laws.writeOut_keeps as _) fun _ w hw => ⟨.of_same hw.1 hw.2.1, hw.2.2⟩
  refine Ends.bind (Ends.mono written fun o w hw => ?_)
  cases o with
  | error e => exact .inr ⟨e, rfl, hw⟩
  | ok =>
    refine .inl ⟨(), rfl, Ends.mono (beneath_keeps ((laws.inner _ _).values k _)) fun _ u hu => ?_⟩
    exact ⟨hu.1 ▸ hw.1, hu.2.trans hw.2⟩

theorem keys_accesses (laws : c.Clocked R scan failing)
    (lists : ∀ x r, c.inner.Lists (fun s t => R s ⟨x, t, r⟩) failing) (v : Layer CacheState UInt64) :
    Ends R c.rows.keys v fun _ w => v.Accesses Nothing w := by
  refine (laws.read v).next ?_
  refine Ends.then_pure (Ends.mono (beneath_keeps (lists _ _ _)) fun _ w hw => ?_)
  exact ⟨hw.1 ▸ .of_same rfl rfl, hw.2⟩

theorem sync_accesses (laws : c.Clocked R scan failing) (v : Layer CacheState UInt64) :
    Ends R c.rows.sync v fun _ w => v.Accesses Nothing w := by
  refine Ends.bind (Ends.mono (laws.flush_accesses false v) fun o w hw => ?_)
  cases o with
  | error e => exact .inr ⟨e, rfl, hw⟩
  | ok =>
    refine .inl ⟨(), rfl, Ends.mono (beneath_keeps ((laws.inner _ _).sync _)) fun _ u hu => ?_⟩
    exact ⟨hu.1 ▸ hw.1, hu.2.trans hw.2⟩

/-- **A call takes down the time of the cell that it accesses**, if the policy tracks it, and of no other. -/
theorem call_accesses (laws : c.Clocked R scan failing)
    (trims : ∀ x r, c.inner.Trims (fun s t => R s ⟨x, t, r⟩) failing)
    (lists : ∀ x r, c.inner.Lists (fun s t => R s ⟨x, t, r⟩) failing) (q : Call) (v : Layer CacheState UInt64) :
    Ends R (c.rows.call q) v fun o w => v.Accesses (c.settings.eviction.Tracks o q) w := by
  cases q with
  | put k col u => exact (laws.put_accesses k col u v).then_pure
  | get k col =>
    refine Ends.map (Ends.mono (laws.get_accesses k col v) fun o w hw => ⟨hw.1.congr fun a => ?_, hw.2⟩)
    cases o with
    | error e => simp [Eviction.Tracks]
    | ok u => simp [Eviction.Tracks]
  | delete k => exact (laws.delete_accesses k v).then_pure
  | deleteColumn k col => exact (laws.deleteColumn_accesses trims k col v).then_pure
  | hasKey k => exact (laws.hasKey_accesses k v).map_answer
  | values k => exact (laws.values_accesses k v).map_answer
  | keys => exact (laws.keys_accesses lists v).map_answer
  | sync => exact (laws.sync_accesses v).then_pure

/-- **A pass of evictions** drops the cells that the policy gives up at the time on the clock, and counts them. -/
theorem runEvictions_drops (laws : c.Clocked R scan failing) (v : Layer CacheState UInt64) :
    Yields R c.runEvictions v fun n w => n = v.held.evictCount c.settings.eviction v.rest ∧
      w = { v with held := v.held.evict c.settings.eviction v.rest } := by
  refine (laws.time v).next ?_
  refine (laws.read v).next ?_
  refine (laws.write _ _).step ?_
  exact yields_pure _ ⟨rfl, rfl⟩

end Cache.Clocked

end Calls

/-! ## Runs on a host -/

namespace Frail

variable (settings : CacheSettings) (width : Nat) (refuse : Nat → Option Error)
  (walk : Nat → List (Address Column) → List (Address Column))

/-- a step on a host is an access to the cell that the policy tracks -/
def Tracks (h : Frail) : Host.Step → Address Column → Prop
  | .call q => settings.eviction.Tracks ((cacheOver settings width refuse walk).rows.call q h).1 q
  | .flush _ | .evict | .clock _ => CacheState.Nothing

/-- in a run from `h`, a cell was last accessed at a time, and it has been in the cache ever since -/
def LastAccess (h : Frail) (steps : List Host.Step) (a : Address Column) (time : UInt64) : Prop :=
  ∃ before step later, steps = before ++ step :: later ∧
    Tracks settings width refuse walk (after settings width refuse walk before h) step a ∧
    (after settings width refuse walk before h).clock = time ∧
    (∀ p q, later = p ++ q → ((after settings width refuse walk (before ++ step :: p) h).cache.value? a).isSome) ∧
    ∀ p s q, later = p ++ s :: q →
      ¬ Tracks settings width refuse walk (after settings width refuse walk (before ++ step :: p) h) s a

/-- what a host shows of its cache, its table and its clock -/
def Timed (h : Frail) (v : Layer CacheState UInt64) : Prop := h.cache = v.held ∧ h.table = v.beneath ∧ h.clock = v.rest

variable {settings width refuse walk}

theorem ask_timed (q : Call) (x : CacheState) (now : UInt64) (t : Table Column) :
    Tries (fun h t => Timed h ⟨x, t, now⟩) (ask refuse q) t (Refusable False q) fun _ u => u = t := by
  intro h hs
  cases q with
  | put k col u =>
    refine ⟨t, hs, ?_⟩
    cases refused : refuse h.asked with
    | none => exact .inl ⟨(), by simp only [ask, refused], rfl⟩
    | some e => exact .inr ⟨⟨id, k, col, u, rfl⟩, ⟨e, by simp only [ask, refused]⟩, rfl⟩
  | _ => exact ⟨t, hs, .inl ⟨(), rfl, rfl⟩⟩

variable (settings width refuse) in
theorem cacheOver_clocked (perm : ∀ n as, (walk n as).Perm as) :
    (cacheOver settings width refuse walk).Clocked Timed Eq (Refusable False) where
  inner x now := (Table.rows_serve (fun _ _ hs => hs.2.1) (fun _ _ _ hs => ⟨hs.1, rfl, hs.2.2⟩) width _).guarded
    fun q => ask_timed q x now
  read _ _ hs := ⟨_, hs, _, rfl, hs.1, rfl⟩
  write x v _ hs := ⟨{ v with held := x }, ⟨rfl, hs.2⟩, (), rfl, rfl⟩
  now v _ hs := ⟨v, hs, _, rfl, rfl⟩
  order as v _ hs := ⟨v, hs, _, rfl, perm _ as, rfl⟩
  time v _ hs := ⟨v, hs, _, rfl, hs.2.2, rfl⟩

variable (settings width refuse) in
/-- a step takes down the time of the cell that it accesses, and of no other -/
theorem act_accesses (perm : ∀ n as, (walk n as).Perm as) (step : Host.Step) (h : Frail) :
    h.cache.Accesses (Tracks settings width refuse walk h step) h.clock
      (act settings width refuse walk step h).2.cache := by
  have laws := cacheOver_clocked settings width refuse perm
  have shown : Timed h ⟨h.cache, h.table, h.clock⟩ := ⟨rfl, rfl, rfl⟩
  cases step with
  | call q =>
    have trims (x : CacheState) (now : UInt64) : (cacheOver settings width refuse walk).inner.Trims
        (fun h t => Timed h ⟨x, t, now⟩) (Refusable False) :=
      (Table.rows_trim (fun _ _ hs => hs.2.1) (fun _ _ _ hs => ⟨hs.1, rfl, hs.2.2⟩) width _).guarded
        fun q => ask_timed q x now
    have lists (x : CacheState) (now : UInt64) : (cacheOver settings width refuse walk).inner.Lists
        (fun h t => Timed h ⟨x, t, now⟩) (Refusable False) :=
      (Table.rows_list (fun _ _ hs => hs.2.1) width _).guarded fun q => ask_timed q x now
    obtain ⟨w, ⟨cache, _⟩, accesses, _⟩ := laws.call_accesses trims lists q _ h shown
    have same : (act settings width refuse walk (.call q) h).2 = ((cacheOver settings width refuse walk).rows.call q h).2 :=
      bind_pure_snd ..
    rw [same, cache]
    exact accesses
  | flush empty =>
    obtain ⟨w, ⟨cache, _⟩, accesses, _⟩ := laws.flush_accesses empty _ h shown
    exact cache ▸ accesses
  | evict =>
    obtain ⟨w, ⟨cache, _⟩, _, _, _, rfl⟩ := laws.runEvictions_drops _ h shown
    have same : (act settings width refuse walk .evict h).2 = ((cacheOver settings width refuse walk).runEvictions h).2 :=
      bind_pure_snd ..
    rw [same, cache]
    exact h.cache.drop_accesses _
  | clock time => exact .of_same rfl rfl

theorem after_snoc (steps : List Host.Step) (step : Host.Step) (h : Frail) :
    after settings width refuse walk (steps ++ [step]) h =
      (act settings width refuse walk step (after settings width refuse walk steps h)).2 := by
  rw [after, List.foldl_append]
  rfl

/-- after one more step, a cell was last accessed by it, or before it and the cell is still there -/
theorem lastAccess_snoc {h : Frail} {steps : List Host.Step} {step : Host.Step} {a : Address Column} {time : UInt64} :
    LastAccess settings width refuse walk h (steps ++ [step]) a time ↔
      ((after settings width refuse walk (steps ++ [step]) h).cache.value? a).isSome ∧
        (Tracks settings width refuse walk (after settings width refuse walk steps h) step a ∧
            (after settings width refuse walk steps h).clock = time ∨
          ¬ Tracks settings width refuse walk (after settings width refuse walk steps h) step a ∧
            LastAccess settings width refuse walk h steps a time) := by
  constructor
  · rintro ⟨before, access, later, same, tracked, clock, there, others⟩
    rcases later.eq_nil_or_concat with rfl | ⟨later, last, rfl⟩
    · obtain ⟨rfl, e⟩ := List.append_inj' same rfl
      obtain rfl := List.head_eq_of_cons_eq e
      exact ⟨there [] [] rfl, .inl ⟨tracked, clock⟩⟩
    · rw [List.concat_eq_append] at same there others
      have whole := same
      rw [← List.cons_append, ← List.append_assoc] at same
      obtain ⟨rfl, e⟩ := List.append_inj' same rfl
      obtain rfl := List.head_eq_of_cons_eq e
      refine ⟨?_, .inr ⟨others later step [] rfl, before, access, later, rfl, tracked, clock, fun p q e => ?_,
        fun p s q e => ?_⟩⟩
      · rw [whole]
        exact there (later ++ [step]) [] (by simp)
      · exact there p (q ++ [step]) (by simp [e])
      · exact others p s (q ++ [step]) (by simp [e])
  · rintro ⟨there, ⟨tracked, clock⟩ | ⟨other, before, access, later, rfl, tracked, clock, stays, others⟩⟩
    · refine ⟨steps, step, [], rfl, tracked, clock, fun p q e => ?_, by simp⟩
      obtain ⟨rfl, rfl⟩ := List.nil_eq_append_iff.1 e
      exact there
    · refine ⟨before, access, later ++ [step], by simp, tracked, clock, fun p q e => ?_, fun p s q e => ?_⟩
      · rcases q.eq_nil_or_concat with rfl | ⟨q, last, rfl⟩
        · obtain rfl : p = later ++ [step] := by simpa using e.symm
          simpa using there
        · rw [List.concat_eq_append, ← List.append_assoc] at e
          exact stays p q (List.append_inj' e rfl).1
      · rcases q.eq_nil_or_concat with rfl | ⟨q, last, rfl⟩
        · obtain ⟨rfl, ends⟩ := List.append_inj' e rfl
          obtain rfl := List.singleton_inj.1 ends
          exact other
        · rw [List.concat_eq_append, ← List.cons_append, ← List.append_assoc] at e
          exact others p s q (List.append_inj' e rfl).1

/-- **The times are those of last accesses.** After any run of a new cache, a time is known exactly of the cells that were
accessed since they came into the cache, and it is that of the latest access. -/
theorem times_told (perm : ∀ n as, (walk n as).Perm as) (t : Table Column) (now : UInt64) (steps : List Host.Step)
    (a : Address Column) (time : UInt64) :
    (after settings width refuse walk steps { table := t, clock := now }).cache.times[a]? = some time ↔
      LastAccess settings width refuse walk { table := t, clock := now } steps a time := by
  induction steps using List.reverseRecOn generalizing time with
  | nil => simp [after, LastAccess]
  | append_singleton steps step ih =>
    rw [lastAccess_snoc, after_snoc]
    have accesses := act_accesses settings width refuse perm step
      (after settings width refuse walk steps { table := t, clock := now })
    by_cases tracked : Tracks settings width refuse walk
        (after settings width refuse walk steps { table := t, clock := now }) step a
    · obtain ⟨there, known⟩ := accesses.touched a tracked
      simp [known, there, tracked]
    · rcases accesses.others a tracked with ⟨gone, unknown⟩ | ⟨stays, known⟩
      · simp [gone, unknown]
      · rw [known, ih]
        simp only [tracked, false_and, not_false_iff, true_and, false_or]
        refine ⟨fun last => ⟨stays ?_, last⟩, And.right⟩
        obtain ⟨before, access, later, rfl, _, _, there, _⟩ := last
        exact there later [] (by simp)

variable (settings width refuse walk) in
/-- a cell that a pass of evictions drops after a run from `h`: it is cached and clean, and it has not been accessed since
it came into the cache, or not for as long as the age -/
def Expired (h : Frail) (steps : List Host.Step) (age : Duration) (a : Address Column) : Prop :=
  ((after settings width refuse walk steps h).cache.value? a).isSome ∧
    a ∉ (after settings width refuse walk steps h).cache.marks ∧
    ∀ time, LastAccess settings width refuse walk h steps a time →
      age.millis ≤ (after settings width refuse walk steps h).clock.toNat - time.toNat

/-- a pass of evictions drops the clean cells that have not been accessed, or not for as long as the age keeps -/
theorem mem_evicted_iff_kept (perm : ∀ n as, (walk n as).Perm as) {age : Duration}
    (policy : settings.eviction = .lastRead age ∨ settings.eviction = .lastWrite age) (t : Table Column) (now : UInt64)
    (steps : List Host.Step) (a : Address Column) :
    let start : Frail := { table := t, clock := now }
    let h := after settings width refuse walk steps start
    a ∈ h.cache.evicted settings.eviction h.clock ↔ (h.cache.value? a).isSome ∧ a ∉ h.cache.marks ∧
      ∀ time, LastAccess settings width refuse walk start steps a time → age.kept ≤ h.clock.toNat - time.toNat := by
  intro start h
  have by_age (times : AccessTimes) (time : UInt64) :
      settings.eviction.shouldEvict time a times = Eviction.expired age time a times := by
    rcases policy with e | e <;> rw [e] <;> rfl
  rw [CacheState.mem_evicted, CacheState.evictable, by_age, Bool.and_eq_true, Eviction.expired_iff, Bool.not_eq_true',
    ← Bool.not_eq_true, CacheState.isMarked_iff]
  simp only [h, start, times_told perm]

/-- a pass of evictions drops the cells that have expired -/
theorem mem_evicted_iff (perm : ∀ n as, (walk n as).Perm as) {age : Duration} (small : age.millis < UInt64.size)
    (policy : settings.eviction = .lastRead age ∨ settings.eviction = .lastWrite age) (t : Table Column) (now : UInt64)
    (steps : List Host.Step) (a : Address Column) :
    a ∈ (after settings width refuse walk steps { table := t, clock := now }).cache.evicted settings.eviction
        (after settings width refuse walk steps { table := t, clock := now }).clock ↔
      Expired settings width refuse walk { table := t, clock := now } steps age a := by
  refine (mem_evicted_iff_kept perm policy t now steps a).trans ?_
  rw [age.kept_of_small small]
  rfl

/-- **Evictions are exact.** Under a policy of age, whatever puts the table refuses: after any run, times are known of
cached cells only, and a pass of evictions drops exactly the cells that have expired. It answers how many they are, and
leaves every other cell with its time, every mark, the table and all else as they were. -/
theorem evictions_exact (perm : ∀ n as, (walk n as).Perm as) {age : Duration} (small : age.millis < UInt64.size)
    (policy : settings.eviction = .lastRead age ∨ settings.eviction = .lastWrite age) (t : Table Column) (now : UInt64)
    (steps : List Host.Step) :
    let start : Frail := { table := t, clock := now }
    let h := after settings width refuse walk steps start
    (∀ a ∈ h.cache.times, (h.cache.value? a).isSome) ∧
      ∃ (gone : List (Address Column)) (x : CacheState),
        (cacheOver settings width refuse walk).runEvictions h = (.ok gone.length, { h with cache := x }) ∧
        gone.Nodup ∧ (∀ a, a ∈ gone ↔ Expired settings width refuse walk start steps age a) ∧
        (∀ a, x.value? a = if a ∈ gone then none else h.cache.value? a) ∧
        (∀ a, a ∉ gone → x.times[a]? = h.cache.times[a]?) ∧ x.marks = h.cache.marks := by
  intro start h
  refine ⟨fun a known => ?_, h.cache.evicted settings.eviction h.clock, h.cache.evict settings.eviction h.clock, ?_,
    h.cache.nodup_evicted .., mem_evicted_iff perm small policy t now steps, fun a => h.cache.value?_evict ..,
    fun a stays => ?_, rfl⟩
  · obtain ⟨time, found⟩ := Option.isSome_iff_exists.1 (Std.ExtTreeMap.mem_iff_isSome_getElem?.1 known)
    obtain ⟨before, access, later, rfl, _, _, there, _⟩ := (times_told perm t now steps a time).1 found
    exact there later [] (by simp)
  · rw [CacheState.length_evicted]
    rfl
  · rw [CacheState.mem_evicted, And.comm] at stays
    exact (h.cache.times_drop _ a).trans (if_neg stays)

/-- of two cells that were read the one that was read again stays, and so does one that waits for a flush -/
theorem evictions_exact_reread :
    let settings : CacheSettings := { eviction := .lastRead (.ofMillis 10) }
    let never : Nat → Option Error := fun _ => none
    let walk : Nat → List (Address Column) → List (Address Column) := fun _ => List.reverse
    let start : Frail := { table := .empty, clock := 5 }
    let steps : List Host.Step := [.call (.put "a" 0 [1]), .call (.put "a" 1 [2]), .flush false, .call (.get "a" 0),
      .call (.get "a" 1), .clock 9, .call (.get "a" 1), .call (.put "b" 0 [3]), .clock 16]
    let h := after settings 4 never walk steps start
    h.cache.table.toList = [(⟨"a", 0⟩, [1]), (⟨"a", 1⟩, [2]), (⟨"b", 0⟩, [3])] ∧
      ((cacheOver settings 4 never walk).runEvictions h).2.cache.table.toList =
        [(⟨"a", 1⟩, [2]), (⟨"b", 0⟩, [3])] ∧
      ∃ gone : List (Address Column), ((cacheOver settings 4 never walk).runEvictions h).1 = .ok gone.length ∧
        ∀ a, a ∈ gone ↔ Expired settings 4 never walk start steps (.ofMillis 10) a := by
  intro settings never walk start steps h
  refine ⟨by decide +kernel, by decide +kernel, ?_⟩
  obtain ⟨_, gone, x, run, _, exactly, _⟩ :=
    @evictions_exact settings 4 never walk (fun _ as => List.reverse_perm as) _ (by decide) (.inl rfl) .empty 5 steps
  exact ⟨gone, congrArg Prod.fst run, exactly⟩

end Frail

end RowFiles
