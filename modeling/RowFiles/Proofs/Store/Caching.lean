/-
A write-back cache over any rows that serve a table, seen as the plain table it stands for.

- `Cache.Laws`: what a cache builds on. The rows beneath serve a table, the state is a part to read and write, the clock
  may say anything, and marked cells are written in any order.
- `Cache.Laws.writeOut`, `Cache.Laws.flush`: a flush keeps the plain table, also when a write beneath fails. If none does,
  no cell stays marked.
- `Cache.Laws.serves`: a cache over rows that do not fail serves the plain table itself, so caches may be stacked.
-/
import RowFiles.Proofs.Store.Coherence
import RowFiles.Proofs.Store.Layers

namespace RowFiles

open Run

variable {σ ρ : Type}

/-- the cache and the table beneath stand for the plain table `p` -/
structure Layer.StandsFor (v : Layer CacheState ρ) (p : Table Column) (r : ρ) : Prop where
  coherent : Coherent [] v.held v.beneath p
  rest : v.rest = r

/-- what a cache builds on -/
structure Cache.Laws (c : Cache (Run σ)) (R : σ → Layer CacheState ρ → Prop) (scan : List Bytes → List Bytes → Prop)
    (failing : Call → Prop) : Prop extends Layered c.inner c.state R scan failing where
  now : ∀ v, Yields R c.now v fun _ w => w = v
  order : ∀ as v, Yields R (c.order as) v fun bs w => bs.Perm as ∧ w = v

/-- some put may fail -/
def putsFail (failing : Call → Prop) : Prop := ∃ k col u, failing (.put k col u)

namespace Cache.Laws

variable {c : Cache (Run σ)} {R : σ → Layer CacheState ρ → Prop} {scan : List Bytes → List Bytes → Prop}
  {failing : Call → Prop} {p : Table Column} {r : ρ} {v : Layer CacheState ρ}

/-! ## Flushes -/

/-- writing out owed cells pays for them all, or marks again what is still owed when a put fails -/
theorem writeOut (laws : c.Laws R scan failing) (as : List (Address Column)) (v : Layer CacheState ρ)
    (h : Coherent as v.held v.beneath p) :
    Ends R (c.writeOut as) v fun o w => w.StandsFor p v.rest ∧
      ((o = .ok () ∧ w.held = v.held) ∨ (∃ e, o = .error e) ∧ putsFail failing) := by
  induction as generalizing v with
  | nil => exact ends_pure () ⟨⟨h, rfl⟩, .inl ⟨rfl, rfl⟩⟩
  | cons a rest ih =>
    obtain ⟨u, hu⟩ := h.kept a (.inr List.mem_cons_self)
    refine (laws.read v).next ?_
    simp only [hu]
    refine Ends.bind (Ends.tryCatch ?_)
    refine Ends.mono (Layered.beneath ((laws.inner _ _).put a.key a.column u _)) ?_
    intro o w hw
    rcases hw with ⟨_, rfl, t, rfl, rfl⟩ | ⟨hf, ⟨e, rfl⟩, rfl⟩
    · -- the cell is written
      exact .inl ⟨(), rfl, .inl ⟨(), rfl, ih { v with beneath := v.beneath.put a.key a.column u } (h.pay hu)⟩⟩
    · -- the put fails: this cell and the rest are marked again
      refine .inr ⟨e, rfl, (laws.modify _ _).ends ?_⟩
      intro _ _ hw
      subst hw
      exact ends_throw e (.inr ⟨e, rfl, ⟨h.remark, rfl⟩, .inr ⟨⟨e, rfl⟩, _, _, _, hf⟩⟩)

/-- a flush that ends well leaves no marks, and no cells if it is to empty the cache -/
theorem flush_held (laws : c.Laws R scan failing) (empty : Bool) (h : v.StandsFor p r) :
    Ends R (c.flush empty) v fun o w => w.StandsFor p r ∧
      ((o = .ok () ∧ (∀ a, a ∉ w.held.marks) ∧ (empty = true → ∀ a, w.held.value? a = none)) ∨
        (∃ e, o = .error e) ∧ putsFail failing) := by
  obtain ⟨coherent, rfl⟩ := h
  refine (laws.read v).next ?_
  refine (laws.write _ _).step ?_
  refine (laws.order _ _).ends ?_
  intro as _ hw
  obtain ⟨perm, rfl⟩ := hw
  refine Ends.bind (Ends.mono (laws.writeOut as _ (coherent.owe_all.reorder fun a => perm.mem_iff)) ?_)
  intro o w hw
  rcases hw with ⟨stands, ⟨rfl, held⟩ | ⟨⟨e, rfl⟩, hf⟩⟩
  · have unmarked : ∀ a, a ∉ w.held.marks := fun a => by
      rw [held]
      exact Std.ExtTreeSet.not_mem_empty
    refine .inl ⟨(), rfl, ?_⟩
    cases empty with
    | false => exact ends_pure () ⟨stands, .inl ⟨rfl, unmarked, nofun⟩⟩
    | true =>
      refine Ends.mono (laws.modify _ _) ?_
      intro _ _ hw
      obtain ⟨_, rfl, rfl⟩ := hw
      refine ⟨⟨stands.coherent.drop fun a _ => unmarked a, stands.rest⟩, .inl ⟨rfl, unmarked, fun _ a => ?_⟩⟩
      have clean : (!w.held.isMarked a) = true := by
        rw [Bool.not_eq_true', Bool.eq_false_iff, ne_eq, CacheState.isMarked_iff]
        exact unmarked a
      exact (w.held.value?_drop _ a).trans (if_pos clean)
  · exact .inr ⟨e, rfl, stands, .inr ⟨⟨e, rfl⟩, hf⟩⟩

theorem flush (laws : c.Laws R scan failing) (empty : Bool) (h : v.StandsFor p r) :
    Ends R (c.flush empty) v fun o w => w.StandsFor p r ∧
      ((o = .ok () ∧ ∀ a, a ∉ w.held.marks) ∨ (∃ e, o = .error e) ∧ putsFail failing) :=
  (laws.flush_held empty h).mono fun _ _ hw => hw.imp id fun ends => ends.imp (fun done => ⟨done.1, done.2.1⟩) id

/-- a flush of one row leaves no marks in it -/
theorem flushRow (laws : c.Laws R scan failing) (k : Key) (h : v.StandsFor p r) :
    Ends R (c.flushRow k) v fun o w => w.StandsFor p r ∧
      ((o = .ok () ∧ ∀ a ∈ w.held.marks, a.key ≠ k) ∨ (∃ e, o = .error e) ∧ putsFail failing) := by
  obtain ⟨coherent, rfl⟩ := h
  refine (laws.read v).next ?_
  refine (laws.write _ _).step ?_
  refine (laws.order _ _).ends ?_
  intro as _ hw
  obtain ⟨perm, rfl⟩ := hw
  refine Ends.mono (laws.writeOut as _ ((coherent.owe_row k).reorder fun a => perm.mem_iff)) ?_
  intro o w hw
  rcases hw with ⟨stands, ⟨rfl, held⟩ | failed⟩
  · refine ⟨stands, .inl ⟨rfl, fun a ha => ?_⟩⟩
    rw [held] at ha
    exact ((v.held.mem_marks_unmarkRow k a).1 ha).2
  · exact ⟨stands, .inr failed⟩

/-! ## Puts and gets -/

/-- a put is taken by the cache even if the flush that follows it fails -/
theorem put (laws : c.Laws R scan failing) (k : Key) (col : Column) (u : Bytes) (h : v.StandsFor p r) :
    Ends R (c.put k col u) v fun o w => w.StandsFor (p.put k col u) r ∧
      (o = .ok () ∨ (∃ e, o = .error e) ∧ putsFail failing) := by
  refine (laws.now v).ends ?_
  intro now v hw
  subst hw
  refine (laws.modify _ _).ends ?_
  intro _ w hw
  subst hw
  have taken : Layer.StandsFor { v with held := v.held.put c.settings.eviction now ⟨k, col⟩ u } (p.put k col u) r :=
    ⟨h.coherent.put c.settings.eviction now ⟨k, col⟩ u, h.rest⟩
  split_ifs with auto
  · refine Ends.mono (laws.flush false taken) ?_
    intro o w hw
    rcases hw with ⟨stands, ⟨rfl, _⟩ | failed⟩
    · exact ⟨stands, .inl rfl⟩
    · exact ⟨stands, .inr failed⟩
  · exact ends_pure () ⟨taken, .inl rfl⟩

/-- a put that is not flushed at once stays in the cache, beside the cells of other rows -/
theorem put_held (laws : c.Laws R scan failing) (quiet : c.settings.autoFlush = false) (k : Key) (col : Column)
    (u : Bytes) (h : v.StandsFor p r) :
    Yields R (c.put k col u) v fun _ w => w.StandsFor (p.put k col u) r ∧ w.beneath = v.beneath ∧
      ∀ a, a.key ≠ k → w.held.value? a = v.held.value? a := by
  refine (laws.now v).ends ?_
  intro now v hw
  subst hw
  refine (laws.modify _ _).step ?_
  rw [quiet]
  refine yields_pure () ⟨⟨h.coherent.put c.settings.eviction now ⟨k, col⟩ u, h.rest⟩, rfl, fun a other => ?_⟩
  rw [v.held.value?_put, if_neg fun e => other (congrArg Address.key e).symm]

theorem getCached (laws : c.Laws R scan failing) (a : Address Column) (h : v.StandsFor p r) :
    Yields R (c.getCached a) v fun u w => w.StandsFor p r ∧ u = v.held.value? a ∧ w.beneath = v.beneath ∧
      ∀ b, w.held.value? b = v.held.value? b := by
  refine (laws.read v).next ?_
  refine (laws.now _).bind ?_
  intro now v hw
  subst hw
  refine (laws.modify _ _).step ?_
  exact yields_pure _ ⟨⟨h.coherent.congr rfl rfl, h.rest⟩, rfl, rfl, fun _ => rfl⟩

/-- a get answers from the plain table, writes nothing beneath and leaves the cached cells of other rows -/
theorem get_held (laws : c.Laws R scan failing) (k : Key) (col : Column) (h : v.StandsFor p r) :
    Tries R (c.get k col) v (failing (.get k col)) fun u w =>
      w.StandsFor p r ∧ u = p.get k col ∧ w.beneath = v.beneath ∧ ∀ a, a.key ≠ k → w.held.value? a = v.held.value? a := by
  refine (laws.read v).next ?_
  cases hit : v.held.value? ⟨k, col⟩ with
  | some u =>
    refine ((laws.getCached ⟨k, col⟩ h).mono ?_).tries
    intro _ w hw
    obtain ⟨stands, rfl, same, cells⟩ := hw
    exact ⟨stands, by rw [hit, h.coherent.shadow _ _ hit], same, fun a _ => cells a⟩
  | none =>
    have absent : v.beneath.get k col = p.get k col := h.coherent.get_of_absent hit
    refine Ends.bind (Ends.mono (Layered.beneath ((laws.inner _ _).get k col _)) ?_)
    intro o w hw
    rcases hw with ⟨_, rfl, t, ⟨rfl, rfl⟩, rfl⟩ | ⟨hf, ⟨e, rfl⟩, rfl⟩
    · refine .inl ⟨_, rfl, ?_⟩
      cases found : v.beneath.get k col with
      | none => exact ends_pure none (.inl ⟨none, rfl, h, by rw [← absent, found], rfl, fun _ _ => rfl⟩)
      | some u =>
        obtain ⟨filled, value⟩ := h.coherent.fill hit found
        refine (laws.modify _ _).step ?_
        have stands : Layer.StandsFor { v with held := v.held.fill ⟨k, col⟩ u } p r := ⟨filled, h.rest⟩
        refine Ends.mono (laws.getCached ⟨k, col⟩ stands) ?_
        intro _ w hw
        obtain ⟨_, rfl, stands, rfl, same, cells⟩ := hw
        refine .inl ⟨_, rfl, stands, by rw [value, ← absent, found], same, fun a other => ?_⟩
        rw [cells, v.held.value?_fill_of_ne u fun e => other (congrArg Address.key e).symm]
    · exact .inr ⟨e, rfl, .inr ⟨hf, ⟨e, rfl⟩, rfl⟩⟩

/-- a get of a cell that is nowhere leaves nothing behind -/
theorem get_absent (laws : c.Laws R scan failing) (k : Key) (col : Column) (uncached : v.held.value? ⟨k, col⟩ = none)
    (absent : v.beneath.get k col = none) :
    Tries R (c.get k col) v (failing (.get k col)) fun u w => u = none ∧ w = v := by
  refine (laws.read v).next ?_
  rw [uncached]
  refine Ends.bind (Ends.mono (Layered.beneath ((laws.inner _ _).get k col _)) ?_)
  intro o w hw
  rcases hw with ⟨_, rfl, t, ⟨rfl, rfl⟩, rfl⟩ | ⟨hf, ⟨e, rfl⟩, rfl⟩
  · rw [absent]
    exact .inl ⟨none, rfl, ends_pure none (.inl ⟨none, rfl, rfl, rfl⟩)⟩
  · exact .inr ⟨e, rfl, .inr ⟨hf, ⟨e, rfl⟩, rfl⟩⟩

theorem get (laws : c.Laws R scan failing) (k : Key) (col : Column) (h : v.StandsFor p r) :
    Tries R (c.get k col) v (failing (.get k col)) fun u w => w.StandsFor p r ∧ u = p.get k col :=
  (laws.get_held k col h).mono fun _ _ hw => ⟨hw.1, hw.2.1⟩

/-! ## Calls about rows -/

/-- a row is deleted in the cache and beneath; if that fails beneath, nothing is said of the row -/
theorem delete_held (laws : c.Laws R scan failing) (k : Key) (h : v.StandsFor p r) (hf : ¬ failing (.delete k)) :
    Yields R (c.delete k) v fun _ w => w.StandsFor (p.delete k) r ∧ w.held = v.held.forgetRow k := by
  refine (laws.modify _ v).step ?_
  refine (Tries.yields (Layered.beneath ((laws.inner _ _).delete k _)) hf).mono ?_
  intro _ _ hw
  obtain ⟨_, rfl, rfl⟩ := hw
  exact ⟨⟨h.coherent.forgetRow k, h.rest⟩, rfl⟩

theorem delete (laws : c.Laws R scan failing) (k : Key) (h : v.StandsFor p r) (hf : ¬ failing (.delete k)) :
    Yields R (c.delete k) v fun _ w => w.StandsFor (p.delete k) r :=
  (laws.delete_held k h hf).mono fun _ _ hw => hw.1

/-- a cell is removed in the cache and beneath, or its whole row is if no other cell of it is cached -/
theorem deleteColumn (laws : c.Laws R scan failing)
    (trims : ∀ x r, c.inner.Trims (fun s t => R s ⟨x, t, r⟩) failing) (k : Key) (col : Column) (h : v.StandsFor p r)
    (hd : ¬ failing (.delete k)) (hf : ¬ failing (.deleteColumn k col)) :
    Yields R (c.deleteColumn k col) v fun _ w =>
      w.StandsFor (if v.held.isLastInRow ⟨k, col⟩ then p.delete k else p.deleteColumn k col) r := by
  refine (laws.read v).next ?_
  refine (laws.write _ _).step ?_
  split_ifs with last
  · refine (laws.modify _ _).step ?_
    refine (Tries.yields (Layered.beneath ((laws.inner _ _).delete k _)) hd).mono ?_
    intro _ _ hw
    obtain ⟨_, rfl, rfl⟩ := hw
    exact ⟨h.coherent.forgetLast last, h.rest⟩
  · refine (laws.modify _ _).step ?_
    refine (Tries.yields (Layered.beneath (trims _ _ k col _)) hf).mono ?_
    intro _ _ hw
    obtain ⟨_, rfl, rfl⟩ := hw
    exact ⟨h.coherent.forgetCell ⟨k, col⟩, h.rest⟩

theorem hasKey (laws : c.Laws R scan failing) (k : Key) (h : v.StandsFor p r) :
    Tries R (c.rows.hasKey k) v (failing (.hasKey k)) fun yes w => w.StandsFor p r ∧ yes = p.hasKey k := by
  refine (laws.read v).next ?_
  split_ifs with cached
  · refine Yields.tries (yields_pure true ⟨h, ?_⟩)
    obtain ⟨col, u, hu⟩ := Table.hasKey_iff.1 cached
    exact (Table.hasKey_iff.2 ⟨col, u, h.coherent.shadow ⟨k, col⟩ u hu⟩).symm
  · refine (Layered.beneath ((laws.inner _ _).hasKey k _)).mono ?_
    intro _ _ hw
    obtain ⟨_, ⟨rfl, rfl⟩, rfl⟩ := hw
    refine ⟨h, Table.hasKey_congr fun col => h.coherent.get_of_absent (a := ⟨k, col⟩) ?_⟩
    exact Table.hasKey_eq_false.1 (Bool.not_eq_true _ ▸ cached) col

/-- the values of a row are read beneath once its marked cells are written -/
theorem values (laws : c.Laws R scan failing) (k : Key) (h : v.StandsFor p r) :
    Ends R (c.rows.values k) v fun o w => w.StandsFor p r ∧
      ((∃ us, o = .ok us ∧ scan us (p.values k)) ∨
        (∃ e, o = .error e) ∧ (putsFail failing ∨ failing (.values k))) := by
  refine Ends.bind (Ends.mono (laws.flushRow k h) ?_)
  intro o w hw
  rcases hw with ⟨stands, ⟨rfl, unmarked⟩ | ⟨⟨e, rfl⟩, hf⟩⟩
  · refine .inl ⟨(), rfl, Ends.mono (Layered.beneath ((laws.inner _ _).values k _)) ?_⟩
    have same : w.beneath.values k = p.values k := Table.values_congr fun col =>
      stands.coherent.clean ⟨k, col⟩ (fun hm => unmarked _ hm rfl) List.not_mem_nil
    intro o _ hw
    rcases hw with ⟨us, rfl, _, ⟨found, rfl⟩, rfl⟩ | ⟨hf, ⟨e, rfl⟩, rfl⟩
    · exact ⟨stands, .inl ⟨us, rfl, same ▸ found⟩⟩
    · exact ⟨stands, .inr ⟨⟨e, rfl⟩, .inr hf⟩⟩
  · exact .inr ⟨e, rfl, stands, .inr ⟨⟨e, rfl⟩, .inl hf⟩⟩

/-- the keys found beneath and those of marked cells are the plain table's -/
theorem keys (laws : c.Laws R scan failing) (lists : ∀ x r, c.inner.Lists (fun s t => R s ⟨x, t, r⟩) failing)
    (h : v.StandsFor p r) :
    Tries R c.rows.keys v (failing .keys) fun ks w => w.StandsFor p r ∧ ks.Nodup ∧ ∀ k, k ∈ ks ↔ k ∈ p.keys := by
  refine (laws.read v).next ?_
  refine Ends.bind (Ends.mono (Layered.beneath (lists _ _ _)) ?_)
  intro o _ hw
  rcases hw with ⟨ks, rfl, _, ⟨⟨_, found⟩, rfl⟩, rfl⟩ | ⟨hf, ⟨e, rfl⟩, rfl⟩
  · refine .inl ⟨ks, rfl, Yields.tries (yields_pure _ ⟨h, nodup_eraseDups _, fun k => ?_⟩)⟩
    rw [List.mem_eraseDups, List.mem_append, found]
    exact (h.coherent.mem_keys_iff k).symm
  · exact .inr ⟨e, rfl, .inr ⟨hf, ⟨e, rfl⟩, rfl⟩⟩

theorem sync (laws : c.Laws R scan failing) (h : v.StandsFor p r) :
    Ends R c.rows.sync v fun o w => w.StandsFor p r ∧
      ((o = .ok () ∧ ∀ a, a ∉ w.held.marks) ∨ (∃ e, o = .error e) ∧ (putsFail failing ∨ failing .sync)) := by
  refine Ends.bind (Ends.mono (laws.flush false h) ?_)
  intro o w hw
  rcases hw with ⟨stands, ⟨rfl, unmarked⟩ | ⟨⟨e, rfl⟩, hf⟩⟩
  · refine .inl ⟨(), rfl, Ends.mono (Layered.beneath ((laws.inner _ _).sync _)) ?_⟩
    intro o _ hw
    rcases hw with ⟨_, rfl, _, rfl, rfl⟩ | ⟨hf, ⟨e, rfl⟩, rfl⟩
    · exact ⟨stands, .inl ⟨rfl, unmarked⟩⟩
    · exact ⟨stands, .inr ⟨⟨e, rfl⟩, .inr hf⟩⟩
  · exact .inr ⟨e, rfl, stands, .inr ⟨⟨e, rfl⟩, .inl hf⟩⟩

/-- evictions take clean cells only -/
theorem runEvictions (laws : c.Laws R scan failing) (h : v.StandsFor p r) :
    Yields R c.runEvictions v fun _ w => w.StandsFor p r := by
  refine (laws.now v).bind ?_
  intro now v hw
  subst hw
  refine (laws.read _).next ?_
  refine (laws.write _ _).step ?_
  refine yields_pure _ ⟨h.coherent.drop fun a out hm => ?_, h.rest⟩
  have marked : v.held.isMarked a = true := (v.held.isMarked_iff a).2 hm
  rw [CacheState.evictable, marked] at out
  cases out

end Cache.Laws

/-! ## A cache as a store -/

/-- a state that shows a cache and a table beneath shows the plain table they stand for -/
def Layer.Plain (R : σ → Layer CacheState ρ → Prop) (r : ρ) : σ → Table Column → Prop :=
  fun s p => ∃ v, R s v ∧ v.StandsFor p r

/-- what is known of a cache and the table beneath is known of the plain table -/
theorem Layer.ends_plain {α : Type} {R : σ → Layer CacheState ρ → Prop} {r : ρ} {x : Run σ α} {p : Table Column}
    {Q : Except Error α → Table Column → Prop}
    (h : ∀ v, v.StandsFor p r → Ends R x v fun o w => ∃ q, w.StandsFor q r ∧ Q o q) : Ends (Plain R r) x p Q := by
  intro s hu
  obtain ⟨v, hs, stands⟩ := hu
  obtain ⟨w, hw, q, after, holds⟩ := h v stands s hs
  exact ⟨q, ⟨w, hw, after⟩, holds⟩

namespace Cache.Laws

variable {c : Cache (Run σ)} {R : σ → Layer CacheState ρ → Prop} {scan : List Bytes → List Bytes → Prop}

theorem not_putsFail : ¬ putsFail never := fun ⟨_, _, _, h⟩ => h

/-- **A cache serves the plain table** that it stands for, if no call of the rows beneath fails. -/
theorem serves (laws : c.Laws R scan never) (r : ρ) : c.rows.Serves (Layer.Plain R r) scan never where
  put k col u p := Layer.ends_plain fun v h => by
    refine Ends.mono (laws.put k col u h) ?_
    intro o w hw
    rcases hw with ⟨stands, rfl | ⟨_, hf⟩⟩
    · exact ⟨_, stands, .inl ⟨(), rfl, rfl⟩⟩
    · exact absurd hf not_putsFail
  get k col p := Layer.ends_plain fun v h => by
    refine Ends.mono ((laws.get k col h).yields id) ?_
    intro o w hw
    obtain ⟨u, rfl, stands, rfl⟩ := hw
    exact ⟨p, stands, .inl ⟨_, rfl, rfl, rfl⟩⟩
  delete k p := Layer.ends_plain fun v h => by
    refine Ends.mono (laws.delete k h id) ?_
    intro o w hw
    obtain ⟨_, rfl, stands⟩ := hw
    exact ⟨_, stands, .inl ⟨(), rfl, rfl⟩⟩
  hasKey k p := Layer.ends_plain fun v h => by
    refine Ends.mono ((laws.hasKey k h).yields id) ?_
    intro o w hw
    obtain ⟨_, rfl, stands, rfl⟩ := hw
    exact ⟨p, stands, .inl ⟨_, rfl, rfl, rfl⟩⟩
  values k p := Layer.ends_plain fun v h => by
    refine Ends.mono (laws.values k h) ?_
    intro o w hw
    rcases hw with ⟨stands, ⟨us, rfl, found⟩ | ⟨_, hf | hf⟩⟩
    · exact ⟨p, stands, .inl ⟨us, rfl, found, rfl⟩⟩
    · exact absurd hf not_putsFail
    · exact hf.elim
  sync p := Layer.ends_plain fun v h => by
    refine Ends.mono (laws.sync h) ?_
    intro o w hw
    rcases hw with ⟨stands, ⟨rfl, _⟩ | ⟨_, hf | hf⟩⟩
    · exact ⟨p, stands, .inl ⟨(), rfl, rfl⟩⟩
    · exact absurd hf not_putsFail
    · exact hf.elim

/-- a cache lists the rows of the plain table -/
theorem rows_list (laws : c.Laws R scan never) (lists : ∀ x r, c.inner.Lists (fun s t => R s ⟨x, t, r⟩) never) (r : ρ) :
    c.rows.Lists (Layer.Plain R r) never := fun p => Layer.ends_plain fun v h => by
  refine Ends.mono ((laws.keys lists h).yields id) ?_
  intro o w hw
  obtain ⟨ks, rfl, stands, found⟩ := hw
  exact ⟨p, stands, .inl ⟨ks, rfl, found, rfl⟩⟩

theorem flush_plain (laws : c.Laws R scan never) (empty : Bool) (r : ρ) (p : Table Column) :
    Yields (Layer.Plain R r) (c.flush empty) p fun _ q => q = p := Layer.ends_plain fun v h => by
  refine Ends.mono (laws.flush empty h) ?_
  intro o w hw
  rcases hw with ⟨stands, ⟨rfl, _⟩ | ⟨_, hf⟩⟩
  · exact ⟨p, stands, (), rfl, rfl⟩
  · exact absurd hf not_putsFail

theorem runEvictions_plain (laws : c.Laws R scan never) (r : ρ) (p : Table Column) :
    Yields (Layer.Plain R r) c.runEvictions p fun _ q => q = p := Layer.ends_plain fun v h => by
  refine Ends.mono (laws.runEvictions h) ?_
  intro o w hw
  obtain ⟨n, rfl, stands⟩ := hw
  exact ⟨p, stands, n, rfl, rfl⟩

end Cache.Laws

end RowFiles
