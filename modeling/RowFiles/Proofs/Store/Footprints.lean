/-
Caches over a table that they share with others.

A cache brings no cell into memory but those of the rows it is asked about, and writes beneath no cell that it does not
hold. So where each of several caches over one table is only asked about rows of its own, it holds cells of its own rows
only, and leaves all others as they are in the table.

- `CacheState.Adds`: the rows of which a call may bring in cells; `Cache.Laws.flush_adds`, `Cache.Laws.put_adds` and the
  others say it of each call.
- `Cache.Laws.owned_put` and the others: a call about a row of its own keeps a cache to its own rows.
- `Layer.Owns.beneath_same`: no other row is written; `Coherent.moved_beneath`: a cache stands for its own rows whatever
  happens to the rows that it does not hold.
-/
import RowFiles.Proofs.Store.Caching

namespace RowFiles

open Run

/-! ## Cells that come into a cache -/

namespace CacheState

/-- all cells lie in rows of which `K` holds -/
def Within (x : CacheState) (K : Key → Prop) : Prop := ∀ a v, x.value? a = some v → K a.key

/-- a state `y` after `x` holds nothing that `x` did not, but for cells of rows of which `K` holds -/
def Adds (x : CacheState) (K : Key → Prop) (y : CacheState) : Prop := ∀ a v, y.value? a = some v → x.value? a = some v ∨ K a.key

variable {x y z : CacheState} {K : Key → Prop}

theorem Adds.of_cells (same : ∀ a, y.value? a = x.value? a) : x.Adds K y := fun a _ h => .inl (same a ▸ h)

theorem Adds.of_table (same : y.table = x.table) : x.Adds K y := .of_cells fun a => by rw [value?, value?, same]

theorem Adds.refl (x : CacheState) : x.Adds K x := fun _ _ => .inl

theorem Adds.drop (x : CacheState) (out : Address Column → Bool) : x.Adds K (x.drop out) := fun a v h => by
  rw [value?_drop] at h
  split_ifs at h
  exact .inl h

theorem Adds.trans (h : x.Adds K y) (h' : y.Adds K z) : x.Adds K z := fun a v hv =>
  (h' a v hv).elim (h a v) .inr

theorem Within.value?_eq_none (h : x.Within K) {a : Address Column} (out : ¬ K a.key) : x.value? a = none := by
  cases cached : x.value? a with
  | none => rfl
  | some v => exact absurd (h a v cached) out

theorem Within.adds (h : x.Within K) (added : x.Adds K y) : y.Within K := fun a v hv =>
  (added a v hv).elim (h a v) id

end CacheState

variable {σ ρ : Type}

namespace Cache.Laws

variable {c : Cache (Run σ)} {R : σ → Layer CacheState ρ → Prop} {scan : List Bytes → List Bytes → Prop}
  {failing : Call → Prop} {K : Key → Prop}

/-- writing out marked cells keeps every cell in the cache, and the times of accesses -/
theorem writeOut_keeps (laws : c.Laws R scan failing) (as : List (Address Column)) (v : Layer CacheState ρ) :
    Ends R (c.writeOut as) v fun _ w =>
      w.held.table = v.held.table ∧ w.held.times = v.held.times ∧ w.rest = v.rest := by
  induction as generalizing v with
  | nil => exact ends_pure () ⟨rfl, rfl, rfl⟩
  | cons a rest ih =>
    refine (laws.read v).next ?_
    cases v.held.value? a with
    | none => exact ih v
    | some u =>
      refine Ends.bind (Ends.tryCatch (Ends.mono (Layered.beneath ((laws.inner _ _).put a.key a.column u _)) ?_))
      intro o w hw
      rcases hw with ⟨_, rfl, t, rfl, rfl⟩ | ⟨_, ⟨e, rfl⟩, rfl⟩
      · exact .inl ⟨(), rfl, .inl ⟨(), rfl, ih _⟩⟩
      · refine .inr ⟨e, rfl, (laws.modify _ _).ends ?_⟩
        intro _ _ hw
        subst hw
        exact ends_throw e (.inr ⟨e, rfl, rfl, rfl, rfl⟩)

theorem flush_adds (laws : c.Laws R scan failing) (empty : Bool) (v : Layer CacheState ρ) :
    Ends R (c.flush empty) v fun _ w => v.held.Adds K w.held := by
  refine (laws.read v).next ?_
  refine (laws.write _ _).step ?_
  refine (laws.order _ _).ends ?_
  intro as _ hw
  obtain ⟨_, rfl⟩ := hw
  refine Ends.bind (Ends.mono (laws.writeOut_keeps as _) fun o w same => ?_)
  have kept : v.held.Adds K w.held := .of_table same.1
  cases o with
  | error e => exact .inr ⟨e, rfl, kept⟩
  | ok =>
    refine .inl ⟨(), rfl, ?_⟩
    cases empty with
    | false => exact ends_pure () kept
    | true =>
      refine Ends.mono (laws.modify _ w) fun _ _ hw => ?_
      obtain ⟨_, _, rfl⟩ := hw
      exact kept.trans (.drop w.held _)

theorem flushRow_adds (laws : c.Laws R scan failing) (k : Key) (v : Layer CacheState ρ) :
    Ends R (c.flushRow k) v fun _ w => v.held.Adds K w.held := by
  refine (laws.read v).next ?_
  refine (laws.write _ _).step ?_
  refine (laws.order _ _).ends ?_
  intro as _ hw
  obtain ⟨_, rfl⟩ := hw
  exact Ends.mono (laws.writeOut_keeps as _) fun _ _ same => .of_table same.1

theorem put_adds (laws : c.Laws R scan failing) (k : Key) (col : Column) (u : Bytes) (v : Layer CacheState ρ) :
    Ends R (c.put k col u) v fun _ w => v.held.Adds (· = k) w.held := by
  refine (laws.now v).ends ?_
  intro now v hw
  subst hw
  refine (laws.modify _ _).ends ?_
  intro _ w hw
  subst hw
  have taken : v.held.Adds (· = k) (v.held.put c.settings.eviction now ⟨k, col⟩ u) := fun a v' h => by
    rw [CacheState.value?_put] at h
    split_ifs at h with here
    · exact .inr (congrArg Address.key here).symm
    · exact .inl h
  split_ifs
  · exact Ends.mono (laws.flush_adds false _) fun _ _ later => taken.trans later
  · exact ends_pure () taken

theorem hasKey_adds (laws : c.Laws R scan failing) (k : Key) (v : Layer CacheState ρ) :
    Ends R (c.rows.hasKey k) v fun _ w => v.held.Adds K w.held := by
  refine (laws.read v).next ?_
  split_ifs
  · exact ends_pure true (.refl _)
  · refine Ends.mono (Layered.beneath ((laws.inner _ _).hasKey k _)) fun _ w hw => ?_
    rcases hw with ⟨_, _, _, _, rfl⟩ | ⟨_, _, rfl⟩
    · exact .refl _
    · exact .refl _

theorem values_adds (laws : c.Laws R scan failing) (k : Key) (v : Layer CacheState ρ) :
    Ends R (c.rows.values k) v fun _ w => v.held.Adds K w.held := by
  refine Ends.bind (Ends.mono (laws.flushRow_adds (K := K) k v) fun o w kept => ?_)
  cases o with
  | error e => exact .inr ⟨e, rfl, kept⟩
  | ok =>
    refine .inl ⟨(), rfl, Ends.mono (Layered.beneath ((laws.inner _ _).values k _)) fun _ u hu => ?_⟩
    rcases hu with ⟨_, _, _, _, rfl⟩ | ⟨_, _, rfl⟩
    · exact kept
    · exact kept

theorem sync_adds (laws : c.Laws R scan failing) (v : Layer CacheState ρ) :
    Ends R c.rows.sync v fun _ w => v.held.Adds K w.held := by
  refine Ends.bind (Ends.mono (laws.flush_adds (K := K) false v) fun o w kept => ?_)
  cases o with
  | error e => exact .inr ⟨e, rfl, kept⟩
  | ok =>
    refine .inl ⟨(), rfl, Ends.mono (Layered.beneath ((laws.inner _ _).sync _)) fun _ u hu => ?_⟩
    rcases hu with ⟨_, _, _, _, rfl⟩ | ⟨_, _, rfl⟩
    · exact kept
    · exact kept

theorem runEvictions_adds (laws : c.Laws R scan failing) (v : Layer CacheState ρ) :
    Ends R c.runEvictions v fun _ w => v.held.Adds K w.held := by
  refine (laws.now v).ends ?_
  intro now v hw
  subst hw
  refine (laws.read _).next ?_
  refine (laws.write _ _).step ?_
  exact ends_pure _ (.drop _ _)

end Cache.Laws

/-! ## Caches with rows of their own -/

/-- a cache and the table beneath stand for a plain table, and the cache holds cells of its own rows only -/
structure Layer.Owns (v : Layer CacheState ρ) (K : Key → Prop) (p : Table Column) (r : ρ) : Prop
    extends v.StandsFor p r where
  within : v.held.Within K

theorem Layer.Owns.ends {α : Type} {R : σ → Layer CacheState ρ → Prop} {K : Key → Prop} {x : Run σ α}
    {v : Layer CacheState ρ} {p q : Table Column} {r : ρ} {Q : Except Error α → Layer CacheState ρ → Prop}
    (h : v.Owns K p r) (unique : Functional R) (stands : Ends R x v fun o w => w.StandsFor q r ∧ Q o w)
    (adds : Ends R x v fun _ w => v.held.Adds K w.held) : Ends R x v fun o w => w.Owns K q r ∧ Q o w := by
  refine Ends.mono (Ends.both unique stands adds) fun o w hw => ?_
  obtain ⟨⟨stands, hq⟩, added⟩ := hw
  exact ⟨⟨stands, h.within.adds added⟩, hq⟩

namespace Cache.Laws

variable {c : Cache (Run σ)} {R : σ → Layer CacheState ρ → Prop} {K : Key → Prop} {v : Layer CacheState ρ}
  {p : Table Column} {r : ρ} {k : Key}

theorem owned_get (laws : c.Laws R Eq never) (h : v.Owns K p r) (own : K k) (col : Column) :
    Yields R (c.get k col) v fun u w => w.Owns K p r ∧ u = p.get k col := by
  refine ((laws.get_held k col h.toStandsFor).yields id).mono fun u w hw => ?_
  obtain ⟨stands, found, _, cells⟩ := hw
  refine ⟨⟨stands, fun a u' hv => ?_⟩, found⟩
  by_cases here : a.key = k
  · exact here ▸ own
  · exact h.within a u' (cells a here ▸ hv)

theorem owned_delete (laws : c.Laws R Eq never) (h : v.Owns K p r) (k : Key) :
    Yields R (c.delete k) v fun _ w => w.Owns K (p.delete k) r ∧ w.held = v.held.forgetRow k := by
  refine (laws.delete_held k h.toStandsFor id).mono fun _ w hw => ?_
  obtain ⟨stands, held⟩ := hw
  refine ⟨⟨stands, fun a u hv => ?_⟩, held⟩
  rw [held, CacheState.value?_forgetRow] at hv
  split_ifs at hv
  exact h.within a u hv

section

variable (laws : c.Laws R Eq never) (unique : Functional R) (h : v.Owns K p r)

include laws unique h

theorem owned_put (own : K k) (col : Column) (u : Bytes) :
    Yields R (c.put k col u) v fun _ w => w.Owns K (p.put k col u) r := by
  have adds : Ends R (c.put k col u) v fun _ w => v.held.Adds K w.held :=
    Ends.mono (laws.put_adds k col u v) fun _ w added a u' hv => (added a u' hv).imp id fun (e : a.key = k) => e ▸ own
  refine Ends.mono (h.ends unique (laws.put k col u h.toStandsFor) adds) fun o w hw => ?_
  obtain ⟨owns, rfl | ⟨_, failed⟩⟩ := hw
  · exact ⟨(), rfl, owns⟩
  · exact absurd failed not_putsFail

theorem owned_hasKey (k : Key) : Yields R (c.rows.hasKey k) v fun yes w => w.Owns K p r ∧ yes = p.hasKey k := by
  have stands : Ends R (c.rows.hasKey k) v fun o w => w.StandsFor p r ∧ o = .ok (p.hasKey k) :=
    Ends.mono ((laws.hasKey k h.toStandsFor).yields id) fun o w hw => by
      obtain ⟨_, rfl, stands, rfl⟩ := hw
      exact ⟨stands, rfl⟩
  exact Ends.mono (h.ends unique stands (laws.hasKey_adds k v)) fun _ _ hw => ⟨_, hw.2, hw.1, rfl⟩

theorem owned_values (k : Key) : Yields R (c.rows.values k) v fun us w => w.Owns K p r ∧ us = p.values k := by
  refine Ends.mono (h.ends unique (laws.values k h.toStandsFor) (laws.values_adds k v)) fun o w hw => ?_
  obtain ⟨owns, ⟨us, rfl, found⟩ | ⟨_, failed | failed⟩⟩ := hw
  · exact ⟨us, rfl, owns, found⟩
  · exact absurd failed not_putsFail
  · exact failed.elim

/-- once a cache is synced, no cell is marked -/
theorem owned_sync : Yields R c.rows.sync v fun _ w => w.Owns K p r ∧ ∀ a, a ∉ w.held.marks := by
  refine Ends.mono (h.ends unique (laws.sync h.toStandsFor) (laws.sync_adds v)) fun o w hw => ?_
  obtain ⟨owns, ⟨rfl, clean⟩ | ⟨_, failed | failed⟩⟩ := hw
  · exact ⟨(), rfl, owns, clean⟩
  · exact absurd failed not_putsFail
  · exact failed.elim

theorem owned_flush (empty : Bool) : Yields R (c.flush empty) v fun _ w => w.Owns K p r := by
  refine Ends.mono (h.ends unique (laws.flush empty h.toStandsFor) (laws.flush_adds empty v)) fun o w hw => ?_
  obtain ⟨owns, ⟨rfl, _⟩ | ⟨_, failed⟩⟩ := hw
  · exact ⟨(), rfl, owns⟩
  · exact absurd failed not_putsFail

theorem owned_runEvictions : Yields R c.runEvictions v fun _ w => w.Owns K p r := by
  refine Ends.mono (Ends.both unique (laws.runEvictions h.toStandsFor) (laws.runEvictions_adds (K := K) v)) fun o w hw => ?_
  obtain ⟨⟨n, rfl, stands⟩, added⟩ := hw
  exact ⟨n, rfl, stands, h.within.adds added⟩

end

end Cache.Laws

/-! ## The table beneath -/

namespace Coherent

variable {x x' : CacheState} {b b' p p' : Table Column}

/-- a cell that is in the cache neither before nor after is not written beneath -/
theorem beneath_same (h : Coherent [] x b p) (h' : Coherent [] x' b' p') {a : Address Column} (out : x.value? a = none)
    (out' : x'.value? a = none) (same : p'.get a.key a.column = p.get a.key a.column) :
    b'.get a.key a.column = b.get a.key a.column := by
  rw [h'.get_of_absent out', same, h.get_of_absent out]

/-- a cache stands for as much of a table that is the same where the cache has cells -/
theorem moved_beneath (h : Coherent [] x b p)
    (same : ∀ a v, x.value? a = some v → b'.get a.key a.column = b.get a.key a.column) :
    ∃ q, Coherent [] x b' q ∧
      ∀ a : Address Column, b'.get a.key a.column = b.get a.key a.column → q.get a.key a.column = p.get a.key a.column := by
  have laid (a : Address Column) : (⟨b'.cells ∪ x.table.cells⟩ : Table Column).get a.key a.column =
      (x.value? a).or (b'.get a.key a.column) := Std.ExtTreeMap.getElem?_union
  have told (a : Address Column) : p.get a.key a.column = (x.value? a).or (b.get a.key a.column) := by
    cases cached : x.value? a with
    | some v => exact h.shadow a v cached
    | none => exact (h.get_of_absent cached).symm
  refine ⟨⟨b'.cells ∪ x.table.cells⟩, ⟨h.kept, fun a v cached => ?_, fun a clean _ => ?_⟩, fun a unchanged => ?_⟩
  · rw [laid, cached, Option.some_or]
  · rw [laid]
    cases cached : x.value? a with
    | none => rfl
    | some v =>
      rw [Option.some_or, same a v cached, h.clean a clean List.not_mem_nil]
      exact h.shadow a v cached
  · rw [laid, told, unchanged]

end Coherent

/-- a cache writes rows of its own only -/
theorem Layer.Owns.beneath_same {v w : Layer CacheState ρ} {K : Key → Prop} {p q : Table Column} {r : ρ} {k : Key}
    {col : Column} (h : v.Owns K p r) (h' : w.Owns K q r) (out : ¬ K k) (same : q.get k col = p.get k col) :
    w.beneath.get k col = v.beneath.get k col :=
  h.coherent.beneath_same (a := ⟨k, col⟩) h'.coherent (CacheState.Within.value?_eq_none h.within out)
    (CacheState.Within.value?_eq_none h'.within out) same

end RowFiles
