/-
Lengths that wait in memory while flushes fail.

The table of a shaky archive refuses puts as it likes, each without effect. A length that is set without committing it takes
two puts to be written, that of the length and that of the entry in the listing, and a flush that is refused one of them
may leave the first without the second. The file is dirty again then, so its entry is made up for.

- `Catalog.Arranged`: the rows are in order, but for entries of files that are dirty or about to be written.
- `Catalog.FrailLaws.flush_arranged`: so they are after a flush, whether it fails or not.
- `ShakyArchive.Ways.lengths_outlast_refusals`: after any run the answers are those of one map of lengths, as if no put were
  refused; and a flush that ends well leaves nothing dirty, and the whole map in the table.
-/
import RowFiles.Proofs.Files.FrailWriters
import RowFiles.Proofs.Files.Reopening
import RowFiles.Proofs.Store.Outages

namespace RowFiles

open Run

/-! ## Order in the rows -/

namespace Catalog

/-- nothing but lengths of files in use is written. Each entry of the listing is that of a file whose length is written, and
the other way round unless the file is dirty or in `owed`. -/
structure Arranged (U : Key → Prop) (owed : List Key) (x : CatalogState) (t : Table Column) : Prop extends Named U x t where
  recorded : ∀ key col v, t.get (lengthRow key) col = some v → col = lengthColumn ∧ U key
  written : ∀ key, t.get listing (listingColumn key) = some (Utf8.encode (lengthRow key)) →
    (t.get (lengthRow key) lengthColumn).isSome
  listed : Apart U → ∀ key, (t.get (lengthRow key) lengthColumn).isSome → key ∉ x.dirty → key ∉ owed →
    t.get listing (listingColumn key) = some (Utf8.encode (lengthRow key))

namespace Arranged

variable {U : Key → Prop} {owed : List Key} {x y : CatalogState} {t : Table Column} {key : Key}

theorem new (U : Key → Prop) : Arranged U [] {} .empty where
  dirty _ h := absurd h Std.ExtTreeSet.not_mem_empty
  entries _ _ h := by simp at h
  recorded _ _ _ h := by simp at h
  written _ h := by simp at h
  listed _ _ h := by simp at h

/-- a file with a length row is in use -/
theorem used (h : Arranged U owed x t) (there : (t.get (lengthRow key) lengthColumn).isSome) : U key := by
  obtain ⟨cell, found⟩ := Option.isSome_iff_exists.1 there
  exact (h.recorded key _ cell found).2

/-- files may change between being dirty and being owed -/
theorem congr {owed' : List Key} (h : Arranged U owed x t) (used : ∀ k ∈ y.dirty, U k)
    (more : ∀ k, k ∈ x.dirty ∨ k ∈ owed → k ∈ y.dirty ∨ k ∈ owed') : Arranged U owed' y t where
  dirty := used
  entries := h.entries
  recorded := h.recorded
  written := h.written
  listed apart k there clean paid := by
    refine h.listed apart k there (fun dirty => ?_) fun owes => ?_
    · exact (more k (.inl dirty)).elim clean paid
    · exact (more k (.inr owes)).elim clean paid

theorem setLength (h : Arranged U [] x t) (used : U key) (n : UInt64) :
    Arranged U [] ((x.setLength key n).markDirty key) t := by
  refine h.congr (fun k hk => ?_) fun k hk => ?_
  · rcases (x.mem_dirty_setLength n k).1 hk with rfl | hk
    · exact used
    · exact h.dirty k hk
  · exact hk.imp (fun dirty => (x.mem_dirty_setLength n k).2 (.inr dirty)) id

/-- a length is written without its entry, while both are owed -/
theorem put_length (h : Arranged U (key :: owed) x t) (used : U key) (n : UInt64) :
    Arranged U (key :: owed) x (t.put (lengthRow key) lengthColumn (Bytes.ofUInt64 n)) := by
  have listing_same (col : Column) :
      (t.put (lengthRow key) lengthColumn (Bytes.ofUInt64 n)).get listing col = t.get listing col := by
    rw [Table.get_put, if_neg fun e => lengthRow_ne_listing key e.1]
  have row (k : Key) : ((t.put (lengthRow key) lengthColumn (Bytes.ofUInt64 n)).get (lengthRow k) lengthColumn).isSome ↔
      key = k ∨ (t.get (lengthRow k) lengthColumn).isSome := by
    simp only [Table.get_put, lengthRow_injective.eq_iff]
    by_cases same : key = k <;> simp [same]
  refine ⟨⟨h.dirty, fun col v => ?_⟩, fun k col v found => ?_, fun k => ?_, fun apart k there clean paid => ?_⟩
  · rw [listing_same]
    exact h.entries col v
  · rw [Table.get_put] at found
    split_ifs at found with here
    · exact ⟨here.2.symm, lengthRow_injective here.1 ▸ used⟩
    · exact h.recorded k col v found
  · rw [listing_same, row]
    exact fun entry => .inr (h.written k entry)
  · rw [listing_same]
    refine h.listed apart k (((row k).1 there).resolve_left fun same => ?_) clean paid
    exact paid (same ▸ List.mem_cons_self)

/-- with its entry a length is paid for -/
theorem put_entry (h : Arranged U (key :: owed) x t) (used : U key) (there : (t.get (lengthRow key) lengthColumn).isSome) :
    Arranged U owed x (t.put listing (listingColumn key) (Utf8.encode (lengthRow key))) := by
  have row (k : Key) (col : Column) :
      (t.put listing (listingColumn key) (Utf8.encode (lengthRow key))).get (lengthRow k) col = t.get (lengthRow k) col := by
    rw [Table.get_put, if_neg fun e => lengthRow_ne_listing k e.1.symm]
  have entry (col : Column) : (t.put listing (listingColumn key) (Utf8.encode (lengthRow key))).get listing col =
      if listingColumn key = col then some (Utf8.encode (lengthRow key)) else t.get listing col := by
    simp only [Table.get_put, true_and]
  refine ⟨⟨h.dirty, fun col v found => ?_⟩, fun k col v => ?_, fun k found => ?_, fun apart k there' clean paid => ?_⟩
  · rw [entry] at found
    split_ifs at found with here
    · exact ⟨key, used, here, Option.some.inj found⟩
    · exact h.entries col v found
  · rw [row]
    exact h.recorded k col v
  · rw [row]
    rw [entry] at found
    split_ifs at found with here
    · exact encode_lengthRow_injective (Option.some.inj found) ▸ there
    · exact h.written k found
  · rw [row] at there'
    rw [entry]
    split_ifs with here
    · rw [apart key k used (h.used there') here]
    · refine h.listed apart k there' clean fun owes => ?_
      rcases List.mem_cons.1 owes with rfl | owes
      · exact here rfl
      · exact paid owes

theorem persisted (h : Arranged U (key :: owed) x t) (used : U key) (n : UInt64) :
    Arranged U owed x (persisted t key n) := by
  refine (h.put_length used n).put_entry used ?_
  rw [Table.get_put, if_pos ⟨rfl, rfl⟩]
  rfl

theorem forget (h : Arranged U [] x t) (used : U key) : Arranged U [] (x.forget key) (forgotten t key) := by
  refine ⟨⟨fun k hk => h.dirty k (Std.ExtTreeSet.mem_of_mem_erase hk), fun col v found => ?_⟩, fun k col v found => ?_,
    fun k found => ?_, fun apart k there clean paid => ?_⟩
  · rw [get_forgotten_listing] at found
    split_ifs at found
    exact h.entries col v found
  · rw [get_forgotten] at found
    split_ifs at found
    exact h.recorded k col v found
  · rw [get_forgotten_listing] at found
    split_ifs at found with here
    rw [get_forgotten, if_neg fun same => here (congrArg listingColumn same)]
    exact h.written k found
  · rw [get_forgotten] at there
    split_ifs at there with same
    · cases there
    · rw [get_forgotten_listing, if_neg fun column => same (apart key k used (h.used there) column)]
      refine h.listed apart k there (fun dirty => clean ?_) paid
      simp [CatalogState.forget, same, dirty]

end Arranged

/-! ## Calls that may fail -/

namespace FrailLaws

variable {σ ρ : Type} {c : Catalog (Run σ)} {R : σ → Layer CatalogState ρ → Prop} {scan : List Bytes → List Bytes → Prop}
  {failing : Call → Prop} {U : Key → Prop} {v : Layer CatalogState ρ}

/-- writing out lengths keeps the rows in order, those that are yet to be written apart -/
theorem persistAll_arranged (laws : c.FrailLaws R scan failing) (keys : List Key) (v : Layer CatalogState ρ)
    (known : ∀ key ∈ keys, ∃ n, v.held.lengths[key]? = some n) (used : ∀ key ∈ keys, U key)
    (h : Arranged U keys v.held v.beneath) :
    Ends R (c.persistAll keys) v fun _ w => Arranged U [] w.held w.beneath := by
  induction keys generalizing v with
  | nil => exact ends_pure () h
  | cons key keys ih =>
    have here := used key List.mem_cons_self
    obtain ⟨n, held⟩ := known key List.mem_cons_self
    refine (laws.read v).next ?_
    rw [held]
    refine Ends.bind (Ends.tryCatch (Ends.mono (laws.persist key n v) fun o w hw => ?_))
    rcases hw with ⟨_, rfl, rfl⟩ | ⟨_, ⟨e, rfl⟩, left⟩
    · refine .inl ⟨(), rfl, .inl ⟨(), rfl, ih { v with beneath := persisted v.beneath key n } ?_ ?_ (h.persisted here n)⟩⟩
      · exact fun k hk => known k (List.mem_cons_of_mem key hk)
      · exact fun k hk => used k (List.mem_cons_of_mem key hk)
    · have still : Arranged U (key :: keys) w.held w.beneath := by
        rcases left with rfl | rfl
        · exact h
        · exact h.put_length here n
      have dirty (k : Key) : k ∈ (w.held.markAllDirty (key :: keys)).dirty ↔ k ∈ w.held.dirty ∨ k ∈ key :: keys := by
        simp [CatalogState.markAllDirty, Std.ExtTreeSet.mem_insertMany_list]
      refine .inr ⟨e, rfl, (laws.modify _ w).ends ?_⟩
      intro _ _ hw
      subst hw
      refine ends_throw e (.inr ⟨e, rfl, still.congr (fun k hk => ?_) fun k hk => .inl ((dirty k).2 hk)⟩)
      exact ((dirty k).1 hk).elim (still.dirty k) (used k)

/-- a flush keeps the rows in order, whether it fails or not -/
theorem flush_arranged (laws : c.FrailLaws R scan failing) (h : Arranged U [] v.held v.beneath)
    (known : ∀ key ∈ v.held.dirty, ∃ n, v.held.lengths[key]? = some n) :
    Ends R (c.flush false) v fun _ w => Arranged U [] w.held w.beneath := by
  refine (laws.read v).next ?_
  refine (laws.write _ _).step ?_
  refine (laws.order _ _).ends ?_
  intro keys _ hw
  obtain ⟨perm, rfl⟩ := hw
  have dirty (k : Key) : k ∈ keys ↔ k ∈ v.held.dirty := perm.mem_iff.trans Std.ExtTreeSet.mem_toList
  have owed : Arranged U keys { v.held with dirty := ∅ } v.beneath :=
    h.congr (fun _ hk => absurd hk Std.ExtTreeSet.not_mem_empty)
      fun k hk => .inr ((dirty k).2 (hk.resolve_right List.not_mem_nil))
  refine Ends.bind (Ends.mono (laws.persistAll_arranged keys _ (fun k hk => known k ((dirty k).1 hk))
    (fun k hk => h.dirty k ((dirty k).1 hk)) owed) fun o w hw => ?_)
  cases o with
  | ok => exact .inl ⟨(), rfl, ends_pure () hw⟩
  | error e => exact .inr ⟨e, rfl, hw⟩

end FrailLaws

end Catalog

/-- a catalog stands for the lengths `m`, and its rows are arranged for the files in use -/
structure Layer.Arranges {ρ : Type} (v : Layer CatalogState ρ) (U : Key → Prop) (m : Catalog.Index) (r : ρ) : Prop where
  records : v.Records (fun _ => True) (m[·]?) r
  arranged : Catalog.Arranged U [] v.held v.beneath

namespace Layer.Arranges

variable {ρ : Type} {v : Layer CatalogState ρ} {U : Key → Prop} {m : Catalog.Index} {r : ρ} {key : Key}

theorem empty (U : Key → Prop) (r : ρ) : Layer.Arranges ⟨{}, .empty, r⟩ U ∅ r :=
  ⟨(Layer.Indexes.empty U r).records, .new U⟩

/-- the files that are listed are all there are -/
theorem lists_iff (h : v.Arranges U m r) (apart : Catalog.Apart U) :
    Catalog.Lists v.held v.beneath key ↔ key ∈ m := by
  rw [Catalog.Lists, h.records.mem_iff]
  by_cases dirty : key ∈ v.held.dirty
  · simp [dirty]
  · refine or_congr_right ⟨h.arranged.written key, fun there => ?_⟩
    exact h.arranged.listed apart key there dirty List.not_mem_nil

/-- where nothing is dirty, the listing has the entries of all files and no other -/
theorem entry_iff (h : v.Arranges U m r) (apart : Catalog.Apart U) (clean : ∀ key, key ∉ v.held.dirty) (col : Column)
    (cell : Bytes) : v.beneath.get Catalog.listing col = some cell ↔
      ∃ key ∈ m, Catalog.listingColumn key = col ∧ Utf8.encode (Catalog.lengthRow key) = cell := by
  have listed (k : Key) : v.beneath.get Catalog.listing (Catalog.listingColumn k) =
      some (Utf8.encode (Catalog.lengthRow k)) ↔ k ∈ m := by
    rw [← h.lists_iff apart, Catalog.Lists]
    simp [clean]
  constructor
  · intro found
    obtain ⟨k, _, rfl, rfl⟩ := h.arranged.entries col cell found
    exact ⟨k, (listed k).1 found, rfl, rfl⟩
  · rintro ⟨k, there, rfl, rfl⟩
    exact (listed k).2 there

/-- dropping lengths that are not dirty changes nothing -/
theorem dropClean (h : v.Arranges U m r) : Layer.Arranges { v with held := v.held.dropClean } U m r :=
  ⟨⟨h.records.coherent.dropClean fun _ _ owes => absurd owes List.not_mem_nil, h.records.rest⟩,
    h.arranged.congr h.arranged.dirty fun _ hk => hk⟩

end Layer.Arranges

/-- **A flush** writes every length with its entry, or fails and keeps what the catalog stands for. -/
theorem Catalog.FrailLaws.flush_arranges {σ ρ : Type} {c : Catalog (Run σ)} {R : σ → Layer CatalogState ρ → Prop}
    {scan : List Bytes → List Bytes → Prop} {failing : Call → Prop} {U : Key → Prop} {m : Catalog.Index} {r : ρ}
    {v : Layer CatalogState ρ} (unique : Functional R) (laws : c.FrailLaws R scan failing) (h : v.Arranges U m r)
    (clear : Bool) : Stops R (c.flush clear) v (someFails failing)
      (fun _ w => w.Arranges U m r ∧ ∀ key, key ∉ w.held.dirty) fun w => w.Arranges U m r := by
  have known (key : Key) (dirty : key ∈ v.held.dirty) := h.records.coherent.kept key trivial (.inl dirty)
  have flushed : Stops R (c.flush false) v (someFails failing)
      (fun _ w => w.Arranges U m r ∧ ∀ key, key ∉ w.held.dirty) fun w => w.Arranges U m r := by
    refine Ends.mono (Ends.both unique (laws.flush h.records) (laws.flush_arranged h.arranged known)) fun o w hw => ?_
    obtain ⟨⟨a, rfl, records, _, clean⟩ | ⟨fails, failed, records, _⟩, arranged⟩ := hw
    · exact .inl ⟨a, rfl, ⟨records, arranged⟩, clean⟩
    · exact .inr ⟨fails, failed, records, arranged⟩
  cases clear with
  | false => exact flushed
  | true =>
    rw [Catalog.Laws.flush_true]
    refine Stops.bind flushed ?_ fun _ left => left
    intro _ w hw
    obtain ⟨arranges, clean⟩ := hw
    refine Ends.mono (laws.modify _ w) fun o w' hw => ?_
    obtain ⟨_, rfl, rfl⟩ := hw
    exact .inl ⟨_, rfl, arranges.dropClean, clean⟩

/-! ## A shaky archive -/

structure ShakyArchive extends Archive where
  /-- how many puts the table has been asked for -/
  asked : Nat := 0

/-- a step that leaves lengths to be written by a flush, and keeps the catalog -/
def Archive.Step.Deferred : Archive.Step → Prop
  | .setLength _ _ commit => commit = false
  | .reopen => False
  | .length _ | .has _ | .list | .delete _ | .flush _ => True

namespace ShakyArchive

open Archive (Step told LastSet InUse)

/-- nothing is dirty, and the table alone has every length of `m` with its entry in the listing, and no other entry -/
structure Written (g : ShakyArchive) (m : Catalog.Index) : Prop where
  clean : ∀ key, key ∉ g.catalog.dirty
  lengths : ∀ key, g.table.get (Catalog.lengthRow key) Catalog.lengthColumn = m[key]?.map Bytes.ofUInt64
  entries : ∀ col cell, g.table.get Catalog.listing col = some cell ↔
    ∃ key ∈ m, Catalog.listingColumn key = col ∧ Utf8.encode (Catalog.lengthRow key) = cell

/-- how an archive works, and the reason for which its table refuses the `n`th put, if it does -/
structure Ways extends Archive.Ways where
  refuse : Nat → Option Error

/-- lets a call through, or refuses it if it is a put -/
def ask (refuse : Nat → Option Error) : Call → Run ShakyArchive Unit
  | .put .. => fun g =>
    (match refuse g.asked with | some e => .error e | none => .ok (), { g with asked := g.asked + 1 })
  | _ => pure ()

namespace Ways

variable (w : Ways)

def catalog : Catalog (Run ShakyArchive) where
  rows := (Table.rows (Run.part (fun g => g.table) fun t g => { g with table := t }) w.width).guarded (ask w.refuse)
  state := Run.part (fun g => g.catalog) fun x g => { g with catalog := x }
  order keys := fun g => (.ok (w.files g.drawn keys), { g with drawn := g.drawn + 1 })

def act : Step → Run ShakyArchive Archive.Answer
  | .length key => .length <$> w.catalog.length key
  | .has key => .flag <$> w.catalog.has key
  | .list => .names <$> w.catalog.keys
  | .setLength key length commit => (fun _ => .done) <$> w.catalog.setLength key length commit
  | .delete key => (fun _ => .done) <$> w.catalog.delete key
  | .flush clear => (fun _ => .done) <$> w.catalog.flush clear
  | .reopen => fun g => (.ok .done, { g with catalog := {} })

/-- the archive after some steps, whatever each of them answers -/
def after (steps : List Step) (g : ShakyArchive) : ShakyArchive := steps.foldl (fun g step => (w.act step g).2) g

/-- the same archive while nothing is refused -/
def calm : Ways := { w with refuse := fun _ => none }

/-- what an archive shows; on a calm one no put will be refused from now on -/
def Viewed (calm : Prop) (g : ShakyArchive) (v : Layer CatalogState Unit) : Prop :=
  g.catalog = v.held ∧ g.table = v.beneath ∧ (calm → ∀ n ≥ g.asked, w.refuse n = none)

variable {w} {calm : Prop} {U : Key → Prop} {m : Catalog.Index} {v : Layer CatalogState Unit}

theorem viewed_functional : Functional (w.Viewed calm) := by
  rintro g ⟨_, _, _⟩ ⟨_, _, _⟩ ⟨rfl, rfl, _⟩ ⟨rfl, rfl, _⟩
  rfl

theorem ask_tries (q : Call) (x : CatalogState) (t : Table Column) :
    Tries (fun g t => w.Viewed calm g ⟨x, t, ()⟩) (ask w.refuse q) t (Frail.Refusable calm q) fun _ u => u = t := by
  intro g hs
  obtain ⟨catalog, table, quiet⟩ := hs
  cases q with
  | put k col u =>
    have later : calm → ∀ n ≥ g.asked + 1, w.refuse n = none := fun c n hn => quiet c n (by omega)
    refine ⟨t, ⟨catalog, table, later⟩, ?_⟩
    cases refused : w.refuse g.asked with
    | none => exact .inl ⟨(), by simp only [ask, refused], rfl⟩
    | some e =>
      have storm : ¬ calm := fun c => by
        rw [quiet c g.asked (Nat.le_refl _)] at refused
        cases refused
      exact .inr ⟨⟨storm, k, col, u, rfl⟩, ⟨e, by simp only [ask, refused]⟩, rfl⟩
  | _ => exact ⟨t, ⟨catalog, table, quiet⟩, .inl ⟨(), rfl, rfl⟩⟩

theorem catalog_laws (w : Ways) (calm : Prop) : w.catalog.FrailLaws (w.Viewed calm) Eq (Frail.Refusable calm) where
  inner x _ := (Table.rows_serve (fun _ _ hs => hs.2.1) (fun _ _ _ hs => ⟨hs.1, rfl, hs.2.2⟩) w.width _).guarded
    fun q => ask_tries q x
  read v _ hs := ⟨v, hs, _, rfl, hs.1, rfl⟩
  write x v _ hs := ⟨{ v with held := x }, ⟨rfl, hs.2⟩, (), rfl, rfl⟩
  order keys v _ hs := ⟨v, hs, _, rfl, w.files_perm _ keys, rfl⟩

theorem catalog_trims (w : Ways) (x : CatalogState) (r : Unit) :
    w.catalog.rows.Trims (fun g t => w.Viewed calm g ⟨x, t, r⟩) (Frail.Refusable calm) :=
  (Table.rows_trim (fun _ _ hs => hs.2.1) (fun _ _ _ hs => ⟨hs.1, rfl, hs.2.2⟩) w.width _).guarded fun q => ask_tries q x

/-- no call of a calm archive fails -/
theorem refusable_true : Frail.Refusable True = never := funext fun _ => propext ⟨fun h => h.1 trivial, False.elim⟩

theorem calm_laws (w : Ways) : w.calm.catalog.Laws (w.calm.Viewed True) Eq := (refusable_true ▸ w.calm.catalog_laws True).laws

theorem calm_trims (w : Ways) (x : CatalogState) (r : Unit) :
    w.calm.catalog.rows.Trims (fun g t => w.calm.Viewed True g ⟨x, t, r⟩) never := refusable_true ▸ w.calm.catalog_trims x r

/-- a step that puts nothing is taken as where nothing is refused -/
theorem act_calm {step : Step} (deferred : step.Deferred) (other : ∀ clear, step ≠ .flush clear) :
    w.act step = w.calm.act step := by
  cases step with
  | setLength key n commit =>
    obtain rfl : commit = false := deferred
    rfl
  | flush clear => exact absurd rfl (other clear)
  | length | has | list | delete | reopen => rfl

/-- what an archive shows does not depend on what its table refuses -/
theorem viewed_calm {g : ShakyArchive} : w.Viewed False g v ↔ w.calm.Viewed True g v :=
  and_congr_right fun _ => and_congr_right fun _ => ⟨fun _ _ _ _ => rfl, fun _ => False.elim⟩

/-- a step other than a flush answers from the map of lengths, and changes it as it should -/
theorem calm_act_told (h : v.Arranges U m ()) {step : Step} (deferred : step.Deferred) (other : ∀ clear, step ≠ .flush clear) :
    Ends (w.calm.Viewed True) (w.calm.act step) v fun o u => (Catalog.Apart U → o = step.answer m) ∧
      ((∀ key, step.file? = some key → U key) → u.Arranges U (step.tell m) ()) := by
  have laws := w.calm_laws
  cases step with
  | length key =>
    refine Ends.map (Ends.mono (laws.find_records h.records key) fun o u hu => ?_)
    obtain ⟨rfl, records, beneath, dirty⟩ := hu
    refine ⟨fun _ => rfl, fun _ => ⟨records, ?_⟩⟩
    rw [beneath]
    exact h.arranged.congr (fun k hk => h.arranged.dirty k (dirty ▸ hk)) fun k hk => dirty.symm ▸ hk
  | has key =>
    have recorded (col : Column) (u : Bytes) (found : v.beneath.get (Catalog.lengthRow key) col = some u) :=
      (h.arranged.recorded key col u found).1
    refine Ends.map (Ends.mono (laws.has_recorded h.records key recorded) fun o u hu => ?_)
    obtain ⟨_, rfl, rfl, rfl⟩ := hu
    refine ⟨fun _ => ?_, fun _ => h⟩
    rw [Step.answer, Archive.isOk_find]
    rfl
  | list =>
    by_cases apart : Catalog.Apart U
    · refine Ends.map (Ends.mono (laws.keys_of_lists h.arranged.toNamed fun k => h.lists_iff apart) fun o u hu => ?_)
      obtain ⟨_, rfl, rfl, rfl⟩ := hu
      exact ⟨fun _ => rfl, fun _ => h⟩
    · refine Ends.map (Ends.mono (laws.keys_keeps v) fun o u hu => ?_)
      obtain rfl := hu
      exact ⟨fun yes => absurd yes apart, fun _ => h⟩
  | setLength key n commit =>
    obtain rfl : commit = false := deferred
    refine Ends.map (Ends.mono (laws.setLength_held key n v) fun o u hu => ?_)
    obtain ⟨_, rfl, rfl⟩ := hu
    refine ⟨fun _ => rfl, fun used => ⟨⟨?_, h.records.rest⟩, h.arranged.setLength (used key rfl) n⟩⟩
    rw [Step.tell, Catalog.Index.getElem?_insert_eq_update]
    exact h.records.coherent.setLength key n
  | delete key =>
    refine Ends.map (Ends.mono (laws.delete_forgotten w.calm_trims key v) fun o u hu => ?_)
    obtain ⟨_, rfl, rfl⟩ := hu
    refine ⟨fun _ => rfl, fun used => ⟨⟨?_, h.records.rest⟩, h.arranged.forget (used key rfl)⟩⟩
    rw [Step.tell, Catalog.Index.getElem?_erase_eq_update]
    exact h.records.coherent.forget key
  | flush clear => exact absurd rfl (other clear)
  | reopen => exact absurd deferred id

/-- a flush that ends well leaves nothing dirty; it may fail if a put may be refused -/
theorem flush_told (h : v.Arranges U m ()) (clear : Bool) :
    Ends (w.Viewed calm) (w.act (.flush clear)) v fun o u => u.Arranges U m () ∧
      ((∀ a, o = .ok a → ∀ key, key ∉ u.held.dirty) ∧ (calm → o = .ok .done)) := by
  refine Ends.map (Ends.mono ((w.catalog_laws calm).flush_arranges viewed_functional h clear) fun o u hu => ?_)
  rcases hu with ⟨_, rfl, arranges, clean⟩ | ⟨⟨_, storm, _⟩, ⟨e, rfl⟩, arranges⟩
  · exact ⟨arranges, fun _ _ => clean, fun _ => rfl⟩
  · exact ⟨arranges, nofun, fun yes => absurd yes storm⟩

/-- an archive stands for the lengths `m`, and its rows are arranged for the files in use -/
def Stands (w : Ways) (U : Key → Prop) (m : Catalog.Index) (g : ShakyArchive) : Prop :=
  ∃ v, w.Viewed False g v ∧ v.Arranges U m ()

theorem act_stands {g : ShakyArchive} (stands : w.Stands U m g) {step : Step} (deferred : step.Deferred)
    (used : ∀ key, step.file? = some key → U key) : w.Stands U (step.tell m) (w.act step g).2 := by
  obtain ⟨v, shown, h⟩ := stands
  by_cases flush : ∃ clear, step = .flush clear
  · obtain ⟨clear, rfl⟩ := flush
    obtain ⟨u, shown', arranges, _⟩ := flush_told h clear g shown
    exact ⟨u, shown', arranges⟩
  · have other : ∀ clear, step ≠ .flush clear := fun clear same => flush ⟨clear, same⟩
    rw [act_calm deferred other]
    obtain ⟨u, shown', _, arranges⟩ := calm_act_told h deferred other g (viewed_calm.1 shown)
    exact ⟨u, viewed_calm.2 shown', arranges used⟩

theorem after_stands {g : ShakyArchive} (stands : w.Stands U m g) (steps : List Step) (deferred : ∀ step ∈ steps, step.Deferred)
    (used : ∀ key, InUse steps key → U key) : w.Stands U (steps.foldl Step.tell m) (w.after steps g) := by
  induction steps generalizing g m with
  | nil => exact stands
  | cons step steps ih =>
    have acted := act_stands stands (deferred step List.mem_cons_self) fun key e => used key ⟨step, List.mem_cons_self, e⟩
    exact ih acted (fun s hs => deferred s (List.mem_cons_of_mem step hs)) fun key ⟨s, here, e⟩ =>
      used key ⟨s, List.mem_cons_of_mem step here, e⟩

/-- **Lengths outlast refused flushes.** Take any run from an empty table that sets lengths without committing them, asks
for lengths, deletes and lists files, and flushes, while the table refuses any puts and files are written in any order. All
calls but flushes then answer from one map, in which a file has the length last set, if it was not deleted since. A flush
that ends well leaves nothing dirty and the whole map in the table alone; and a flush does end well if no put is refused. -/
theorem lengths_outlast_refusals (w : Ways) (steps : List Step) (deferred : ∀ step ∈ steps, step.Deferred)
    (apart : Catalog.Apart (InUse steps)) :
    let g := w.after steps {}
    (∀ step : Step, step.Deferred → (∀ clear, step ≠ .flush clear) → (w.act step g).1 = step.answer (told steps)) ∧
      (∀ key n, (told steps)[key]? = some n ↔ LastSet key n steps) ∧
      (∀ clear, (w.act (.flush clear) g).1 = .ok .done → (w.act (.flush clear) g).2.Written (told steps)) ∧
      ∀ clear, (∀ n ≥ g.asked, w.refuse n = none) → (w.act (.flush clear) g).1 = .ok .done := by
  intro g
  have start : w.Stands (InUse steps) ∅ {} := ⟨⟨{}, .empty, ()⟩, ⟨rfl, rfl, nofun⟩, .empty _ _⟩
  obtain ⟨v, shown, h⟩ := after_stands start steps deferred fun _ => id
  refine ⟨fun step later other => ?_, fun key n => Archive.told_eq_some_iff key n steps, fun clear ended => ?_,
    fun clear quiet => ?_⟩
  · obtain ⟨_, _, answered, _⟩ := calm_act_told h later other g (viewed_calm.1 shown)
    rw [act_calm later other]
    exact answered apart
  · obtain ⟨u, ⟨catalog, table, _⟩, arranges, clean, _⟩ := flush_told h clear g shown
    have clean := clean .done ended
    refine ⟨?_, fun key => ?_, fun col cell => ?_⟩
    · rw [catalog]
      exact clean
    · rw [table]
      exact arranges.records.coherent.get_of_clean trivial clean
    · rw [table]
      exact arranges.entry_iff apart clean col cell
  · obtain ⟨_, _, _, _, done⟩ := flush_told h clear g (⟨shown.1, shown.2.1, fun _ => quiet⟩ : w.Viewed True g v)
    exact done trivial

/-- the entry of `b` is refused in the first flush, and the length of `a` in the second, when `c` has been deleted -/
theorem lengths_outlast_refusals_twice :
    let refuse : Nat → Option Error := fun n => if n = 3 ∨ n = 4 then some (.backend "down") else none
    let w : Ways := ⟨⟨4, fun n keys => if n = 0 then keys.reverse else keys, fun n keys => by
      split <;> simp [List.reverse_perm]⟩, refuse⟩
    let steps : List Step := [.setLength "a" 1 false, .setLength "b" 2 false, .setLength "c" 3 false, .flush true,
      .setLength "a" 4 false, .delete "c", .flush true]
    let g := w.after steps {}
    g.catalog.dirty.toList = ["a", "b"] ∧ (w.act .list g).1 = Step.list.answer (told steps) ∧
      (told steps).toList = [("a", 4), ("b", 2)] ∧ (w.act (.flush true) g).1 = .ok .done ∧
      (w.act (.flush true) g).2.Written (told steps) := by
  intro refuse w steps g
  have apart : Catalog.Apart (InUse steps) := by
    have all : ∀ key ∈ steps.filterMap Step.file?, key ∈ ["a", "b", "c"] := by decide
    exact .of_nodup _ (fun key ⟨step, here, e⟩ => all key (List.mem_filterMap.2 ⟨step, here, e⟩)) (by decide +kernel)
  obtain ⟨answers, _, flushed, ends⟩ := lengths_outlast_refusals w steps (by simp [steps, Step.Deferred]) apart
  have ended := ends true fun n later => if_neg fun early => by
    have asked : 5 ≤ n := later
    omega
  exact ⟨by decide +kernel, answers .list trivial nofun, by decide +kernel, ended, flushed true ended⟩

end Ways

end ShakyArchive

end RowFiles
