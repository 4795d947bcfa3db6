/-
Catalogs over a store that may refuse any call.

- `Catalog.lengthOf`: the length that a catalog tells of a file, from memory or from the file's row.
- `Catalog.BlameLaws.committed`, `Catalog.BlameLaws.deleted`: what a commit and a deletion leave, by the call that was
  refused.
- `Catalog.FrailLaws.flush_saves`: a flush, whether it fails or not, writes nothing but lengths of dirty files, and no file
  is clean afterwards that was dirty unless its length is in its row.
- `Whims.Seen`: the parts of a state that such a catalog works on, with what they obey (`Whims.Seen.frail`,
  `Whims.Seen.blames`).
-/
import RowFiles.Proofs.Files.FrailWriters
import RowFiles.Proofs.Files.Reopening
import RowFiles.Proofs.Store.Whims

namespace RowFiles

open Run

/-! ## Lengths that are told -/

namespace Catalog

/-- the cell that has the length of a file -/
def lengthCell (t : Table Column) (key : Key) : Option Bytes := t.get (lengthRow key) lengthColumn

/-- the length of a file that a cell tells -/
def cellTells (key : Key) : Option Bytes → Except Error UInt64
  | none => .error (.notFound key)
  | some cell => if cell.length < 8 then .error (.data (.shortLength key cell.length)) else .ok (Bytes.toUInt64 cell)

/-- the length of a file that a catalog tells -/
def lengthOf (x : CatalogState) (t : Table Column) (key : Key) : Except Error UInt64 :=
  match x.lengths[key]? with
  | some n => .ok n
  | none => cellTells key (lengthCell t key)

@[simp] theorem cellTells_ofUInt64 (key : Key) (n : UInt64) : cellTells key (some (Bytes.ofUInt64 n)) = .ok n := by
  simp [cellTells, Bytes.length_ofUInt64, Bytes.toUInt64_ofUInt64]

theorem lengthOf_of_some {x : CatalogState} {t : Table Column} {key : Key} {n : UInt64} (held : x.lengths[key]? = some n) :
    lengthOf x t key = .ok n := by
  rw [lengthOf, held]

theorem lengthOf_of_none {x : CatalogState} {t : Table Column} {key : Key} (absent : x.lengths[key]? = none) :
    lengthOf x t key = cellTells key (lengthCell t key) := by
  rw [lengthOf, absent]

theorem lengthCell_put (t : Table Column) (key k : Key) (x : Bytes) :
    lengthCell (t.put (lengthRow key) lengthColumn x) k = if key = k then some x else lengthCell t k := by
  simp only [lengthCell, Table.get_put, lengthRow_injective.eq_iff, and_true]

theorem lengthCell_put_listing (t : Table Column) (k : Key) (col : Column) (x : Bytes) :
    lengthCell (t.put listing col x) k = lengthCell t k := by
  rw [lengthCell, Table.get_put, if_neg fun e => lengthRow_ne_listing k e.1.symm, lengthCell]

theorem lengthCell_persisted (t : Table Column) (key k : Key) (n : UInt64) :
    lengthCell (persisted t key n) k = if key = k then some (Bytes.ofUInt64 n) else lengthCell t k := by
  rw [persisted, lengthCell_put_listing, lengthCell_put]

theorem lengthCell_delete (t : Table Column) (key k : Key) :
    lengthCell (t.delete (lengthRow key)) k = if key = k then none else lengthCell t k := by
  simp only [lengthCell, Table.get_delete, lengthRow_injective.eq_iff]

theorem lengthCell_forgotten (t : Table Column) (key k : Key) :
    lengthCell (forgotten t key) k = if key = k then none else lengthCell t k := by
  rw [lengthCell, get_forgotten, lengthCell]

end Catalog

variable {σ ρ : Type}

/-- a file is there if its length is in memory or it has a length row -/
def Layer.has (v : Layer CatalogState ρ) (key : Key) : Bool :=
  v.held.lengths.contains key || v.beneath.hasKey (Catalog.lengthRow key)

/-- a step on a catalog -/
def Catalog.take (c : Catalog (Run σ)) : Archive.Step → Run σ Archive.Answer
  | .length key => .length <$> c.length key
  | .has key => .flag <$> c.has key
  | .list => .names <$> c.keys
  | .setLength key length commit => (fun _ => .done) <$> c.setLength key length commit
  | .delete key => (fun _ => .done) <$> c.delete key
  | .flush clear => (fun _ => .done) <$> c.flush clear
  | .reopen => (fun _ => .done) <$> c.state.write {}

namespace Layered

variable {c : Catalog (Run σ)} {R : σ → Layer CatalogState ρ → Prop} {scan : List Bytes → List Bytes → Prop}
  {failing : Call → Prop}

/-- **A length is told** from memory or from the file's row, and is held in memory from then on, if the call is not refused. -/
theorem length_told (laws : Layered c.rows c.state R scan failing) (key : Key) (v : Layer CatalogState ρ) :
    Ends R (c.length key) v fun o w =>
      (o = Catalog.lengthOf v.held v.beneath key ∧ (w = v ∨ ∃ n, v.held.lengths[key]? = none ∧ o = .ok n ∧
        w = { v with held := v.held.fill key n })) ∨
      failing (.get (Catalog.lengthRow key) Catalog.lengthColumn) ∧ (∃ e, o = .error e) ∧ w = v := by
  refine (laws.read v).next ?_
  cases held : v.held.lengths[key]? with
  | some n =>
    rw [Catalog.lengthOf_of_some held]
    exact ends_pure n (.inl ⟨rfl, .inl rfl⟩)
  | none =>
    rw [Catalog.lengthOf_of_none held, Catalog.lengthCell]
    refine Ends.bind (Ends.mono (Layered.beneath ((laws.inner _ _).get _ _ _)) fun o w hw => ?_)
    rcases hw with ⟨_, rfl, _, ⟨rfl, rfl⟩, rfl⟩ | ⟨fails, ⟨e, rfl⟩, rfl⟩
    · refine .inl ⟨_, rfl, ?_⟩
      cases v.beneath.get (Catalog.lengthRow key) Catalog.lengthColumn with
      | none => exact ends_throw _ (.inl ⟨rfl, .inl rfl⟩)
      | some cell =>
        simp only [Catalog.cellTells]
        split_ifs with short
        · exact Ends.bind (ends_throw _ (.inr ⟨_, rfl, .inl ⟨rfl, .inl rfl⟩⟩))
        · refine (laws.modify _ v).step ?_
          refine (laws.read _).next ?_
          have filled := v.held.lengths_fill (Bytes.toUInt64 cell) held key
          rw [if_pos rfl] at filled
          have found : (v.held.fill key (Bytes.toUInt64 cell)).lengths.getD key (Bytes.toUInt64 cell) =
              Bytes.toUInt64 cell := by
            rw [Std.ExtTreeMap.getD_eq_getD_getElem?, filled, Option.getD_some]
          exact ends_pure _ (.inl ⟨congrArg Except.ok found, .inr ⟨_, trivial, congrArg Except.ok found, rfl⟩⟩)
    · exact .inr ⟨e, rfl, .inr ⟨fails, ⟨e, rfl⟩, rfl⟩⟩

/-- asking whether a file is there changes nothing -/
theorem has_told (laws : Layered c.rows c.state R scan failing) (key : Key) (v : Layer CatalogState ρ) :
    Ends R (c.has key) v fun o w =>
      (o = .ok (v.has key) ∨
        failing (.hasKey (Catalog.lengthRow key)) ∧ ∃ e, o = .error e) ∧ w = v := by
  refine (laws.read v).next ?_
  split_ifs with held
  · exact ends_pure true ⟨.inl (by rw [Layer.has, held, Bool.true_or]), rfl⟩
  · refine Ends.mono (Layered.beneath ((laws.inner _ _).hasKey _ _)) fun o w hw => ?_
    rcases hw with ⟨_, rfl, _, ⟨rfl, rfl⟩, rfl⟩ | ⟨fails, failed, rfl⟩
    · exact ⟨.inl (by rw [Layer.has, Bool.eq_false_iff.2 held, Bool.false_or]), rfl⟩
    · exact ⟨.inr ⟨fails, failed⟩, rfl⟩

end Layered

/-! ## Flushes -/

/-- nothing but lengths of dirty files has been written, and a file is clean that was dirty only if its length is -/
structure Layer.Saves (v w : Layer CatalogState ρ) : Prop where
  lengths : w.held.lengths = v.held.lengths
  fewer : ∀ key ∈ w.held.dirty, key ∈ v.held.dirty
  others : ∀ key ∉ v.held.dirty, Catalog.lengthCell w.beneath key = Catalog.lengthCell v.beneath key
  written : ∀ key ∈ v.held.dirty, key ∉ w.held.dirty →
    ∃ n, v.held.lengths[key]? = some n ∧ Catalog.lengthCell w.beneath key = some (Bytes.ofUInt64 n)

namespace Catalog.FrailLaws

variable {c : Catalog (Run σ)} {R : σ → Layer CatalogState ρ → Prop} {scan : List Bytes → List Bytes → Prop}
  {failing : Call → Prop} {v : Layer CatalogState ρ}

/-- the lengths of some files are written, or those of the first of them, and the rest is dirty again -/
theorem persistAll_saves (laws : c.FrailLaws R scan failing) (keys : List Key) (v : Layer CatalogState ρ)
    (known : ∀ key ∈ keys, ∃ n, v.held.lengths[key]? = some n) :
    Ends R (c.persistAll keys) v fun o w =>
      w.held.lengths = v.held.lengths ∧ (∀ key, key ∈ w.held.dirty → key ∈ v.held.dirty ∨ key ∈ keys) ∧
      (∀ key ∉ keys, lengthCell w.beneath key = lengthCell v.beneath key) ∧
      (∀ key ∈ keys, key ∉ w.held.dirty → ∃ n, v.held.lengths[key]? = some n ∧
        lengthCell w.beneath key = some (Bytes.ofUInt64 n)) ∧
      (o = .ok () → w.held = v.held) := by
  induction keys generalizing v with
  | nil =>
    refine ends_pure () ⟨rfl, fun _ => .inl, fun _ _ => rfl, fun key none => ?_, fun _ => rfl⟩
    exact absurd none List.not_mem_nil
  | cons key keys ih =>
    obtain ⟨n, held⟩ := known key List.mem_cons_self
    refine (laws.read v).next ?_
    rw [held]
    refine Ends.bind (Ends.tryCatch (Ends.mono (laws.persist key n v) fun o w hw => ?_))
    rcases hw with ⟨_, rfl, rfl⟩ | ⟨_, ⟨e, rfl⟩, left⟩
    · refine .inl ⟨(), rfl, .inl ⟨(), rfl, Ends.mono (ih _ fun k hk => known k (List.mem_cons_of_mem key hk)) ?_⟩⟩
      rintro o w ⟨lengths, dirty, others, written, ended⟩
      refine ⟨lengths, fun k hk => (dirty k hk).imp id (List.mem_cons_of_mem key), fun k hk => ?_, fun k hk clean => ?_, ended⟩
      · rw [others k fun later => hk (List.mem_cons_of_mem key later), lengthCell_persisted,
          if_neg fun same : key = k => hk (same ▸ List.mem_cons_self)]
      · by_cases later : k ∈ keys
        · exact written k later clean
        · obtain rfl := (List.mem_cons.1 hk).resolve_right later
          exact ⟨n, held, by rw [others k later, lengthCell_persisted, if_pos rfl]⟩
    · -- this file and those after it are dirty again
      have kept : w.held = v.held ∧ ∀ k ≠ key, lengthCell w.beneath k = lengthCell v.beneath k := by
        rcases left with rfl | rfl
        · exact ⟨rfl, fun _ _ => rfl⟩
        · exact ⟨rfl, fun k other => (lengthCell_put ..).trans (if_neg (Ne.symm other))⟩
      have dirty (k : Key) : k ∈ (w.held.markAllDirty (key :: keys)).dirty ↔ k ∈ v.held.dirty ∨ k ∈ key :: keys := by
        rw [kept.1]
        simp [CatalogState.markAllDirty, Std.ExtTreeSet.mem_insertMany_list]
      refine .inr ⟨e, rfl, (laws.modify _ w).step (ends_throw e (.inr ⟨e, rfl, ?_, ?_, ?_, ?_, fun ended => ?_⟩))⟩
      · exact (congrArg CatalogState.lengths kept.1 :)
      · exact fun k => (dirty k).1
      · exact fun k hk => kept.2 k fun same => hk (same ▸ List.mem_cons_self)
      · exact fun k hk clean => absurd ((dirty k).2 (.inr hk)) clean
      · cases ended

/-- **A flush** writes lengths of dirty files; none of them is dirty any more if it ends well. -/
theorem flush_saves (laws : c.FrailLaws R scan failing) (known : ∀ key ∈ v.held.dirty, ∃ n, v.held.lengths[key]? = some n) :
    Ends R (c.flush false) v fun o w => v.Saves w ∧ (o.isOk = true → ∀ key, key ∉ w.held.dirty) := by
  refine (laws.read v).next ?_
  refine (laws.write _ _).step ?_
  refine (laws.order _ _).ends ?_
  rintro keys _ ⟨perm, rfl⟩
  have dirty (k : Key) : k ∈ keys ↔ k ∈ v.held.dirty := perm.mem_iff.trans Std.ExtTreeSet.mem_toList
  refine Ends.bind (Ends.mono (laws.persistAll_saves keys _ fun k hk => known k ((dirty k).1 hk)) ?_)
  rintro o w ⟨lengths, fewer, others, written, ended⟩
  have saves : v.Saves w := by
    refine ⟨lengths, fun k hk => ?_, fun k hk => others k (mt (dirty k).1 hk), fun k hk => written k ((dirty k).2 hk)⟩
    exact (dirty k).1 ((fewer k hk).resolve_left Std.ExtTreeSet.not_mem_empty)
  cases o with
  | error e => exact .inr ⟨e, rfl, saves, nofun⟩
  | ok =>
    refine .inl ⟨(), rfl, ends_pure () ⟨saves, fun _ k hk => ?_⟩⟩
    rw [ended rfl] at hk
    exact Std.ExtTreeSet.not_mem_empty hk

end Catalog.FrailLaws

/-! ## Commits and deletions -/

/-- what a catalog builds on, each call of whose rows is made, or refused and to blame -/
structure Catalog.BlameLaws (c : Catalog (Run σ)) (R : Option Call → σ → Layer CatalogState ρ → Prop)
    (may : Call → Error → Prop) : Prop where
  rows : c.rows.Accounts R may Layer.beneath fun t v => { v with beneath := t }
  read : ∀ v, Yields (R none) c.state.read v fun x w => x = v.held ∧ w = v
  write : ∀ x v, Yields (R none) (c.state.write x) v fun _ w => w = { v with held := x }

/-- the put of a file's length -/
def Catalog.lengthPut (key : Key) (n : UInt64) : Call := .put (lengthRow key) lengthColumn (Bytes.ofUInt64 n)

/-- the put of a file's entry in the listing -/
def Catalog.entryPut (key : Key) : Call := .put listing (listingColumn key) (Utf8.encode (lengthRow key))

theorem Catalog.lengthPut_ne_entryPut (key : Key) (n : UInt64) : lengthPut key n ≠ entryPut key := by
  intro same
  injection same with row
  exact lengthRow_ne_listing key row

namespace Catalog.BlameLaws

variable {c : Catalog (Run σ)} {R : Option Call → σ → Layer CatalogState ρ → Prop} {may : Call → Error → Prop}

theorem modify (laws : c.BlameLaws R may) (f : CatalogState → CatalogState) (v : Layer CatalogState ρ) :
    Yields (R none) (c.state.modify f) v fun _ w => w = { v with held := f v.held } :=
  (laws.read v).next (laws.write _ v)

/-- a length and an entry are written, or the first alone, or neither -/
theorem persisted (laws : c.BlameLaws R may) (key : Key) (n : UInt64) (v : Layer CatalogState ρ) :
    Breaks R (c.persist key n) v (fun _ w => w = { v with beneath := Catalog.persisted v.beneath key n }) fun q e w =>
      Blamed may (lengthPut key n) q e ∧ w = v ∨
      Blamed may (entryPut key) q e ∧
        w = { v with beneath := v.beneath.put (lengthRow key) lengthColumn (Bytes.ofUInt64 n) } := by
  refine (laws.rows.put _ _ _ v).next ?_ fun e refused => .inl ⟨blamed refused, rfl⟩
  exact (laws.rows.put _ _ _ _).last rfl fun e refused => .inr ⟨blamed refused, rfl⟩

/-- **A commit** sets the length in memory, and cleans the file once the length and its entry are written. -/
theorem committed (laws : c.BlameLaws R may) (key : Key) (n : UInt64) (v : Layer CatalogState ρ) :
    Breaks R (c.setLength key n true) v
      (fun _ w => w = { v with held := (v.held.setLength key n).clean key, beneath := Catalog.persisted v.beneath key n })
      fun q e w =>
        Blamed may (lengthPut key n) q e ∧ w = { v with held := v.held.setLength key n } ∨
        Blamed may (entryPut key) q e ∧ w = { v with
          held := v.held.setLength key n
          beneath := v.beneath.put (lengthRow key) lengthColumn (Bytes.ofUInt64 n) } := by
  refine (laws.modify _ v).step_breaks ?_
  refine Breaks.bind (laws.persisted key n _) ?_ fun _ _ _ hw => hw
  rintro _ _ rfl s hs
  obtain ⟨w, shown, _, ran, rfl⟩ := laws.modify (·.clean key) _ s hs
  exact .inl ⟨(), _, ran, shown, rfl⟩

/-- **A deletion** forgets the file, and then removes its length row and its entry, or the first alone, or neither. -/
theorem deleted (laws : c.BlameLaws R may) (key : Key) (v : Layer CatalogState ρ) :
    Breaks R (c.delete key) v
      (fun _ w => w = { v with held := v.held.forget key, beneath := forgotten v.beneath key })
      fun q e w =>
        Blamed may (.delete (lengthRow key)) q e ∧ w = { v with held := v.held.forget key } ∨
        Blamed may (.deleteColumn listing (listingColumn key)) q e ∧
          w = { v with held := v.held.forget key, beneath := v.beneath.delete (lengthRow key) } := by
  refine (laws.modify _ v).step_breaks ?_
  refine (laws.rows.delete _ _).next ?_ fun e refused => .inl ⟨blamed refused, rfl⟩
  exact (laws.rows.deleteColumn _ _ _).last rfl fun e refused => .inr ⟨blamed refused, rfl⟩

/-- whether a file is there is asked without effect -/
theorem has (laws : c.BlameLaws R may) (key : Key) (v : Layer CatalogState ρ) :
    Breaks R (c.has key) v (fun yes w => yes = v.has key ∧ w = v) fun q e w =>
      Blamed may (.hasKey (lengthRow key)) q e ∧ w = v := by
  refine (laws.read v).next_breaks ?_
  split_ifs with held
  · exact breaks_pure ⟨by rw [Layer.has, held, Bool.true_or], rfl⟩
  · refine (laws.rows.hasKey _ v).last ⟨?_, rfl⟩ fun e refused => ⟨blamed refused, rfl⟩
    rw [Layer.has, Bool.eq_false_iff.2 held, Bool.false_or]

end Catalog.BlameLaws

/-! ## Catalogs over a table with whims -/

namespace Whims

variable {view : σ → Layer CatalogState ρ} {toll : σ → Toll} {pay : Toll → σ → σ} {get : σ → Table Column}
  {set : Table Column → σ → σ} {held : σ → CatalogState} {hold : CatalogState → σ → σ}

/-- the parts of a state that a catalog over a table with whims works on, as they are seen -/
structure Seen (view : σ → Layer CatalogState ρ) (toll : σ → Toll) (pay : Toll → σ → σ) (get : σ → Table Column)
    (set : Table Column → σ → σ) (held : σ → CatalogState) (hold : CatalogState → σ → σ) : Prop where
  gets : ∀ s, get s = (view s).beneath
  sets : ∀ t s, view (set t s) = { view s with beneath := t }
  unpaid : ∀ x s, view (pay x s) = view s
  paid : ∀ x s, toll (pay x s) = x
  reads : ∀ s, held s = (view s).held
  holds : ∀ x s, view (hold x s) = { view s with held := x }

namespace Seen

variable (seen : Seen view toll pay get set held hold) (w : Whims) (width : Nat) {order : List Key → Run σ (List Key)}

include seen

theorem frail (perm : ∀ keys v, Yields (fun s v => view s = v) (order keys) v fun ks u => ks.Perm keys ∧ u = v) :
    Catalog.FrailLaws ⟨w.rows toll pay get set width, Run.part held hold, order⟩ (fun s v => view s = v) Eq w.May where
  inner x r := by
    apply Whims.rows_serve
    · rintro s t hs
      rw [seen.gets, hs]
    · rintro _ s t hs
      rw [seen.unpaid, hs]
    · rintro s t u hs
      rw [seen.sets, hs]
  read v s hs := ⟨v, hs, held s, rfl, by rw [seen.reads, hs], rfl⟩
  write x v s hs := ⟨_, rfl, (), rfl, hs ▸ seen.holds x s⟩
  order := perm

theorem blames : Catalog.BlameLaws ⟨w.rows toll pay get set width, Run.part held hold, order⟩
    (Blames toll fun s v => view s = v) w.Gives where
  rows := by
    apply Whims.rows_account
    · rintro s v hs
      rw [seen.gets, hs]
    · rintro _ s v hs
      rw [seen.unpaid, hs]
    · exact seen.paid
    · rintro s v t hs
      rw [seen.sets, hs]
  read v s hs := ⟨v, hs, held s, rfl, by rw [seen.reads, hs.1], rfl⟩
  write x v s hs := ⟨_, ⟨rfl, nofun⟩, (), rfl, hs.1 ▸ seen.holds x s⟩

end Seen

end Whims

end RowFiles
