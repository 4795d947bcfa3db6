/-
Deleting a file from a catalog whose rows lie beneath a write-back cache.

A registry holds a table, a cache over it and a catalog over the cache. A run on it sets lengths, writes them out, deletes
and lists files, flushes the cache, evicts, moves the clock, and starts over with a new cache and a new catalog once both
are flushed. The entries of all files share one row, the listing, and a cache that forgets the last cached cell of a row
deletes the whole row beneath.

- `act_kept`, `play_kept`: after any run, every entry of the listing stands in the column of the file it names, and no step
  fails.
- `delete_leaves`: so a file that is deleted takes no other file off the list, unless its entry was all that was cached of
  the listing. Then just the files whose length is dirty are left.
- `delete_leaves_none`: the exception does arise.
-/
import RowFiles.Proofs.Files.Listings
import RowFiles.Proofs.Store.Caching

namespace RowFiles

open Run

/-! ## Entries of the listing -/

namespace Catalog

/-- the table after a file's length is removed, and the whole listing -/
def unlisted (t : Table Column) (key : Key) : Table Column := (t.delete (lengthRow key)).delete listing

namespace Named

variable {U : Key → Prop} {x : CatalogState} {t : Table Column} {key : Key}

theorem new : Named U {} .empty :=
  ⟨fun _ h => absurd h Std.ExtTreeSet.not_mem_empty, fun col v h => by simp at h⟩

theorem congr {y : CatalogState} (h : Named U x t) (hd : ∀ k ∈ y.dirty, U k) : Named U y t := ⟨hd, h.entries⟩

theorem persisted (h : Named U x t) (used : U key) (n : UInt64) : Named U x (persisted t key n) := by
  refine ⟨h.dirty, fun col v found => ?_⟩
  rw [get_persisted_listing] at found
  split_ifs at found with here
  · exact ⟨key, used, here, Option.some.inj found⟩
  · exact h.entries col v found

theorem forget_dirty (h : Named U x t) (key : Key) : ∀ k ∈ (x.forget key).dirty, U k :=
  fun k hk => h.dirty k (Std.ExtTreeSet.mem_of_mem_erase hk)

theorem forgotten (h : Named U x t) (key : Key) : Named U (x.forget key) (forgotten t key) := by
  refine ⟨h.forget_dirty key, fun col v found => ?_⟩
  rw [get_forgotten_listing] at found
  split_ifs at found
  exact h.entries col v found

/-- without the listing there is no entry -/
theorem unlisted (h : Named U x t) (key : Key) : Named U (x.forget key) (unlisted t key) := by
  refine ⟨h.forget_dirty key, fun col v found => ?_⟩
  rw [Catalog.unlisted, Table.get_delete, if_pos rfl] at found
  cases found

end Named

theorem mem_dirty_forget (x : CatalogState) (key k : Key) : k ∈ (x.forget key).dirty ↔ k ≠ key ∧ k ∈ x.dirty := by
  rw [ne_comm]
  simp [CatalogState.forget]

/-- a file whose row and entry are removed is not listed, and every other file is listed as before -/
theorem lists_forgotten {U : Key → Prop} {x : CatalogState} {t : Table Column} {key : Key} (apart : Apart U)
    (h : Named U x t) (used : U key) (k : Key) :
    Lists (x.forget key) (forgotten t key) k ↔ k ≠ key ∧ Lists x t k := by
  rw [Lists, Lists, mem_dirty_forget, get_forgotten_listing]
  by_cases same : k = key
  · subst same
    simp
  · suffices other : t.get listing (listingColumn k) = some (Utf8.encode (lengthRow k)) →
        listingColumn key ≠ listingColumn k by
      by_cases column : listingColumn key = listingColumn k
      · have gone : ¬ t.get listing (listingColumn k) = some (Utf8.encode (lengthRow k)) := fun e => other e column
        simp [same, gone, column]
      · simp [same, column]
    intro entry column
    obtain ⟨k', used', _, names⟩ := h.entries _ _ entry
    obtain rfl : k' = k := encode_lengthRow_injective names
    exact same (apart k' key used' used column.symm)

/-- without the listing, just the dirty files are listed -/
theorem lists_unlisted (x : CatalogState) (t : Table Column) (key k : Key) :
    Lists (x.forget key) (unlisted t key) k ↔ k ≠ key ∧ k ∈ x.dirty := by
  rw [Lists, mem_dirty_forget, unlisted, Table.get_delete, if_pos rfl]
  simp

/-! ## Calls keep entries -/

namespace Laws

variable {σ ρ : Type} {c : Catalog (Run σ)} {R : σ → Layer CatalogState ρ → Prop} {scan : List Bytes → List Bytes → Prop}
  {U : Key → Prop} {v : Layer CatalogState ρ}

/-- a length is set, written at once or not -/
theorem setLength_named (laws : c.Laws R scan) (h : Named U v.held v.beneath) {key : Key} (used : U key) (n : UInt64)
    (commit : Bool) : Yields R (c.setLength key n commit) v fun _ w => Named U w.held w.beneath ∧ w.rest = v.rest := by
  refine (laws.modify _ v).step ?_
  cases commit with
  | false =>
    refine (laws.modify _ _).mono ?_
    intro _ _ hw
    subst hw
    refine ⟨h.congr fun k hk => ?_, rfl⟩
    rcases (v.held.mem_dirty_setLength n k).1 hk with rfl | hk
    · exact used
    · exact h.dirty k hk
  | true =>
    refine (laws.persist key n _).step ?_
    refine (laws.modify _ _).mono ?_
    intro _ _ hw
    subst hw
    exact ⟨(h.persisted used n).congr fun k hk => h.dirty k (Std.ExtTreeSet.mem_of_mem_erase hk), rfl⟩

/-- lengths are written out -/
theorem persistAll_named (laws : c.Laws R scan) (keys : List Key) (used : ∀ k ∈ keys, U k) (v : Layer CatalogState ρ)
    (h : Named U v.held v.beneath) :
    Yields R (c.persistAll keys) v fun _ w => Named U w.held w.beneath ∧ w.rest = v.rest := by
  induction keys generalizing v with
  | nil => exact yields_pure () ⟨h, rfl⟩
  | cons key keys ih =>
    have later : ∀ k ∈ keys, U k := fun k hk => used k (List.mem_cons_of_mem key hk)
    refine (laws.read v).next ?_
    cases v.held.lengths[key]? with
    | none => exact ih later v h
    | some n =>
      refine (laws.persist key n v).tryCatch.step ?_
      exact ih later { v with beneath := persisted v.beneath key n } (h.persisted (used key List.mem_cons_self) n)

/-- dirty lengths are written out, and lengths in memory dropped or not -/
theorem flush_named (laws : c.Laws R scan) (h : Named U v.held v.beneath) (clear : Bool) :
    Yields R (c.flush clear) v fun _ w => Named U w.held w.beneath ∧ w.rest = v.rest := by
  refine (laws.read v).next ?_
  refine (laws.write _ _).step ?_
  refine (laws.order _ _).bind ?_
  intro keys _ hw
  obtain ⟨perm, rfl⟩ := hw
  have used : ∀ k ∈ keys, U k := fun k hk => h.dirty k (Std.ExtTreeSet.mem_toList.1 (perm.mem_iff.1 hk))
  have cleaned : Named U { v.held with dirty := ∅ } v.beneath :=
    h.congr fun _ hk => absurd hk Std.ExtTreeSet.not_mem_empty
  refine (laws.persistAll_named keys used _ cleaned).bind ?_
  intro _ w hw
  obtain ⟨named, rest⟩ := hw
  cases clear with
  | false => exact yields_pure () ⟨named, rest⟩
  | true =>
    refine (laws.modify _ _).mono ?_
    intro _ _ hw
    subst hw
    exact ⟨named.congr named.dirty, rest⟩

end Laws

end Catalog

/-! ## A registry and its runs -/

structure Registry where
  cache : CacheState := {}
  table : Table Column := .empty
  catalog : CatalogState := {}
  clock : UInt64 := 0
  /-- how often an order has been drawn -/
  drawn : Nat := 0

/-- how a registry works: the settings of its cache, and the orders in which it writes cells and files -/
structure Registry.Ways where
  settings : CacheSettings
  width : Nat
  /-- the order drawn at the `n`th time for some cells -/
  cells : Nat → List (Address Column) → List (Address Column)
  /-- the order drawn at the `n`th time for some files -/
  files : Nat → List Key → List Key
  cells_perm : ∀ n as, (cells n as).Perm as
  files_perm : ∀ n keys, (files n keys).Perm keys

inductive Registry.Step where
  | setLength (key : Key) (length : UInt64) (commit : Bool)
  | flush (clear : Bool)
  | delete (key : Key)
  | list
  | flushCache (empty : Bool)
  | evict
  | clock (time : UInt64)
  /-- starts over with a new cache and a new catalog, once both are flushed -/
  | renew

/-- the file that a step names -/
def Registry.Step.file? : Registry.Step → Option Key
  | .setLength key _ _ | .delete key => some key
  | .flush _ | .list | .flushCache _ | .evict | .clock _ | .renew => none

namespace Registry

/-- an order of a list of any kind, drawn from the registry -/
def draw {α : Type} (orders : Nat → List α → List α) (as : List α) : Run Registry (List α) :=
  fun g => (.ok (orders g.drawn as), { g with drawn := g.drawn + 1 })

namespace Ways

variable (w : Ways)

def cache : Cache (Run Registry) where
  inner := Table.rows (Run.part Registry.table fun t g => { g with table := t }) w.width
  settings := w.settings
  state := Run.part Registry.cache fun x g => { g with cache := x }
  now := (Run.part Registry.clock fun time g => { g with clock := time }).read
  order := draw w.cells

def catalog : Catalog (Run Registry) where
  rows := w.cache.rows
  state := Run.part Registry.catalog fun x g => { g with catalog := x }
  order := draw w.files

def act : Step → Run Registry Unit
  | .setLength key length commit => w.catalog.setLength key length commit
  | .flush clear => w.catalog.flush clear
  | .delete key => w.catalog.delete key
  | .list => do let _ ← w.catalog.keys
  | .flushCache empty => w.cache.flush empty
  | .evict => do let _ ← w.cache.runEvictions
  | .clock time => (Run.part Registry.clock fun time g => { g with clock := time }).write time
  | .renew => do
    w.catalog.flush false
    w.cache.flush false
    w.cache.state.write {}
    w.catalog.state.write {}

def play : List Step → Run Registry Unit
  | [] => pure ()
  | step :: rest => do
    w.act step
    play rest

/-! ## What a registry stands for -/

/-- what a registry shows of its cache, with its catalog beside it -/
def Viewed (g : Registry) (v : Layer CacheState CatalogState) : Prop :=
  g.cache = v.held ∧ g.table = v.beneath ∧ g.catalog = v.rest

/-- what a registry shows of its catalog, over the plain table that the cache and the table beneath stand for -/
def Shown (g : Registry) (v : Layer CatalogState Unit) : Prop := Layer.Plain Viewed v.held g v.beneath

theorem cache_laws : w.cache.Laws Viewed Eq never where
  inner _ _ := Table.rows_serve (fun _ _ hs => hs.2.1) (fun _ _ _ hs => ⟨hs.1, rfl, hs.2.2⟩) w.width never
  read _ _ hs := ⟨_, hs, _, rfl, hs.1, rfl⟩
  write x v _ hs := ⟨{ v with held := x }, ⟨rfl, hs.2⟩, (), rfl, rfl⟩
  now v _ hs := ⟨v, hs, _, rfl, rfl⟩
  order as v _ hs := ⟨v, hs, _, rfl, w.cells_perm _ as, rfl⟩

theorem catalog_laws : w.catalog.Laws Shown Eq where
  inner x _ := w.cache_laws.serves x
  read v g hs := by
    obtain ⟨_, viewed, stands⟩ := hs
    exact ⟨v, ⟨_, viewed, stands⟩, _, rfl, viewed.2.2.trans stands.rest, rfl⟩
  write x v g hs := by
    obtain ⟨u, viewed, stands⟩ := hs
    exact ⟨{ v with held := x }, ⟨{ u with rest := x }, ⟨viewed.1, viewed.2.1, rfl⟩, stands.coherent, rfl⟩, (), rfl, rfl⟩
  order keys v g hs := by
    obtain ⟨u, viewed, stands⟩ := hs
    exact ⟨v, ⟨u, viewed, stands⟩, _, rfl, w.files_perm _ keys, rfl⟩

/-- a registry is in order for the files in use -/
def Kept (U : Key → Prop) (g : Registry) : Prop := ∃ v, Shown g v ∧ Catalog.Named U v.held v.beneath

variable {w} {U : Key → Prop}

theorem shown_catalog {g : Registry} {v : Layer CatalogState Unit} (shown : Shown g v) : g.catalog = v.held := by
  obtain ⟨_, viewed, stands⟩ := shown
  exact viewed.2.2.trans stands.rest

/-- the row of a deleted file is removed, and its entry; with the entry goes the whole listing if nothing else of it was
cached -/
theorem delete_shown (w : Ways) (key : Key) {g : Registry} {v : Layer CatalogState Unit} (shown : Shown g v) :
    ∃ g', w.catalog.delete key g = (.ok (), g') ∧ Shown g' { v with
      held := v.held.forget key
      beneath := if g.cache.isLastInRow ⟨Catalog.listing, Catalog.listingColumn key⟩ then Catalog.unlisted v.beneath key
        else Catalog.forgotten v.beneath key } := by
  have known := shown_catalog shown
  obtain ⟨u, viewed, stands⟩ := shown
  let u' : Layer CacheState CatalogState := { u with rest := v.held.forget key }
  have start : Viewed { g with catalog := v.held.forget key } u' := ⟨viewed.1, viewed.2.1, rfl⟩
  have stands' : u'.StandsFor v.beneath (v.held.forget key) := ⟨stands.coherent, rfl⟩
  obtain ⟨_, g₁, u₁, run₁, viewed₁, stands₁, held⟩ :=
    (w.cache_laws.delete_held (Catalog.lengthRow key) stands' id).run start
  have trims : ∀ x r, w.cache.inner.Trims (fun g t => Viewed g ⟨x, t, r⟩) never := fun _ _ =>
    Table.rows_trim (fun _ _ hs => hs.2.1) (fun _ _ _ hs => ⟨hs.1, rfl, hs.2.2⟩) w.width never
  obtain ⟨_, g₂, u₂, run₂, viewed₂, stands₂⟩ :=
    (w.cache_laws.deleteColumn trims Catalog.listing (Catalog.listingColumn key) stands₁ id id).run viewed₁
  -- what is cached of the listing does not depend on the length row
  rw [held, CacheState.isLastInRow_forgetRow _ (Ne.symm (Catalog.lengthRow_ne_listing key)), ← viewed.1] at stands₂
  refine ⟨g₂, ?_, u₂, viewed₂, stands₂⟩
  have forgets : w.catalog.state.modify (·.forget key) g = (.ok (), { g with catalog := v.held.forget key }) := by
    rw [← known]
    rfl
  rw [Catalog.delete, bind_of_ok forgets]
  exact (bind_of_ok run₁).trans run₂

/-! ## Every run keeps the entries -/

theorem Kept.of_yields {x : Run Registry Unit} {g : Registry} {v : Layer CatalogState Unit} (shown : Shown g v)
    (h : Yields Shown x v fun _ u => Catalog.Named U u.held u.beneath) : ∃ g', x g = (.ok (), g') ∧ Kept U g' := by
  obtain ⟨_, g', u, run, shown', named⟩ := h.run shown
  exact ⟨g', run, u, shown', named⟩

/-- what leaves the catalog and the plain table as they were -/
theorem Kept.of_plain {α : Type} {x : Run Registry α} {g : Registry} {v : Layer CatalogState Unit} (shown : Shown g v)
    (named : Catalog.Named U v.held v.beneath)
    (h : Yields (Layer.Plain Viewed v.held) x v.beneath fun _ t => t = v.beneath) :
    ∃ a g', x g = (.ok a, g') ∧ Kept U g' := by
  obtain ⟨a, g', _, run, shown', rfl⟩ := h.run shown
  exact ⟨a, g', run, v, shown', named⟩

/-- a cache and a catalog that are flushed may be replaced by new ones -/
theorem renew_kept (w : Ways) {g : Registry} {v : Layer CatalogState Unit} (shown : Shown g v)
    (named : Catalog.Named U v.held v.beneath) : ∃ g', w.act .renew g = (.ok (), g') ∧ Kept U g' := by
  obtain ⟨_, g₁, v₁, run₁, ⟨u₁, viewed₁, stands₁⟩, named₁, _⟩ := (w.catalog_laws.flush_named named false).run shown
  obtain ⟨u₂, viewed₂, stands₂, ⟨done, unmarked⟩ | ⟨_, failed⟩⟩ := w.cache_laws.flush false stands₁ g₁ viewed₁
  · let g₂ := (w.cache.flush false g₁).2
    have run₂ : w.cache.flush false g₁ = (.ok (), g₂) := Prod.ext done rfl
    have written : g₂.table = v₁.beneath := viewed₂.2.1.trans (stands₂.coherent.eq_of_unmarked unmarked)
    refine ⟨{ g₂ with cache := {}, catalog := {} }, ?_, ⟨{}, g₂.table, ()⟩, ?_, ?_⟩
    · rw [act, bind_of_ok run₁, bind_of_ok run₂]
      rfl
    · exact ⟨⟨{}, g₂.table, {}⟩, ⟨rfl, rfl, rfl⟩, .new g₂.table, rfl⟩
    · rw [written]
      exact named₁.congr fun _ hk => absurd hk Std.ExtTreeSet.not_mem_empty
  · exact absurd failed Cache.Laws.not_putsFail

/-- no step fails, and each keeps the entries in order -/
theorem act_kept (w : Ways) {step : Step} (used : ∀ key, step.file? = some key → U key) {g : Registry} (kept : Kept U g) :
    ∃ g', w.act step g = (.ok (), g') ∧ Kept U g' := by
  obtain ⟨v, shown, named⟩ := kept
  have laws := w.catalog_laws
  cases step with
  | setLength key n commit =>
    exact Kept.of_yields shown ((laws.setLength_named named (used key rfl) n commit).mono fun _ _ hu => hu.1)
  | flush clear => exact Kept.of_yields shown ((laws.flush_named named clear).mono fun _ _ hu => hu.1)
  | delete key =>
    obtain ⟨g', run, shown'⟩ := delete_shown w key shown
    refine ⟨g', run, _, shown', ?_⟩
    split_ifs
    · exact named.unlisted key
    · exact named.forgotten key
  | list =>
    refine Kept.of_yields shown ((laws.keys_named named).bind ?_)
    intro _ _ hu
    obtain ⟨_, _, rfl⟩ := hu
    exact yields_pure () named
  | flushCache empty =>
    obtain ⟨_, g', run, kept⟩ := Kept.of_plain shown named (w.cache_laws.flush_plain empty _ _)
    exact ⟨g', run, kept⟩
  | evict =>
    obtain ⟨_, g', run, kept⟩ := Kept.of_plain shown named (w.cache_laws.runEvictions_plain _ _)
    exact ⟨g', bind_of_ok run, kept⟩
  | clock time => exact ⟨_, rfl, v, shown, named⟩
  | renew => exact renew_kept w shown named

theorem play_kept (w : Ways) (steps : List Step) (used : ∀ step ∈ steps, ∀ key, step.file? = some key → U key)
    {g : Registry} (kept : Kept U g) : ∃ g', w.play steps g = (.ok (), g') ∧ Kept U g' := by
  induction steps generalizing g with
  | nil => exact ⟨g, rfl, kept⟩
  | cons step steps ih =>
    obtain ⟨g₁, run₁, kept₁⟩ := act_kept w (used step List.mem_cons_self) kept
    obtain ⟨g₂, run₂, kept₂⟩ := ih (fun s hs => used s (List.mem_cons_of_mem step hs)) kept₁
    exact ⟨g₂, (bind_of_ok run₁).trans run₂, kept₂⟩

/-! ## Deleting a file -/

/-- the files that a step of a run names, and one more -/
def InUse (steps : List Step) (key k : Key) : Prop := k = key ∨ ∃ step ∈ steps, step.file? = some k

/-- **Deleting a file takes no other file off the list, unless its entry was all that was cached of the listing.** After any
run from an empty registry, no step of which fails, let `before` be the files listed, and `after` those listed once a file
is deleted: the file is not among them, and every other file is if it was before. Where the entry was the only cached cell
of the listing, the cache deletes the listing beneath, and just the files whose length is dirty are left. -/
theorem delete_leaves (w : Ways) (steps : List Step) (key : Key) (apart : Catalog.Apart (InUse steps key)) :
    ∃ g before after, w.play steps {} = (.ok (), g) ∧ (w.catalog.keys g).1 = .ok before ∧
      ((do w.catalog.delete key; w.catalog.keys : Run Registry (List Key)) g).1 = .ok after ∧
      ∀ k, k ∈ after ↔ k ≠ key ∧
        if g.cache.isLastInRow ⟨Catalog.listing, Catalog.listingColumn key⟩ then k ∈ g.catalog.dirty else k ∈ before := by
  have start : Kept (InUse steps key) {} :=
    ⟨⟨{}, .empty, ()⟩, ⟨⟨{}, .empty, {}⟩, ⟨rfl, rfl, rfl⟩, .new _, rfl⟩, .new⟩
  obtain ⟨g, run, v, shown, named⟩ := play_kept w steps (fun step here k e => .inr ⟨step, here, e⟩) start
  obtain ⟨before, _, _, listed, _, found, _, _⟩ := (w.catalog_laws.keys_named named).run shown
  obtain ⟨g', deleted, shown'⟩ := delete_shown w key shown
  refine ⟨g, ?_⟩
  rw [shown_catalog shown]
  cases last : g.cache.isLastInRow ⟨Catalog.listing, Catalog.listingColumn key⟩ with
  | true =>
    rw [last] at shown'
    obtain ⟨after, _, _, listed', _, found', _, _⟩ := (w.catalog_laws.keys_named (named.unlisted key)).run shown'
    refine ⟨before, after, run, by rw [listed], by rw [bind_of_ok deleted, listed'], fun k => ?_⟩
    exact (found' k).trans (Catalog.lists_unlisted v.held v.beneath key k)
  | false =>
    rw [last] at shown'
    obtain ⟨after, _, _, listed', _, found', _, _⟩ := (w.catalog_laws.keys_named (named.forgotten key)).run shown'
    refine ⟨before, after, run, by rw [listed], by rw [bind_of_ok deleted, listed'], fun k => ?_⟩
    simp only [found', found]
    exact Catalog.lists_forgotten apart named (.inl rfl) k

/-- a registry that writes in the order it is given -/
def inOrder (settings : CacheSettings) : Ways :=
  ⟨settings, 4, fun _ as => as, fun _ keys => keys, fun _ _ => .rfl, fun _ _ => .rfl⟩

/-- names that include those in use are apart if no two of them share a column of the listing -/
theorem inUse_apart {steps : List Step} {key : Key} (names : List Key)
    (all : ∀ k ∈ key :: steps.filterMap Step.file?, k ∈ names) (nodup : (names.map Catalog.listingColumn).Nodup) :
    Catalog.Apart (InUse steps key) := by
  refine .of_nodup names (fun k used => ?_) nodup
  rcases used with rfl | ⟨step, here, e⟩
  · exact all k List.mem_cons_self
  · exact all k (List.mem_cons_of_mem _ (List.mem_filterMap.2 ⟨step, here, e⟩))

/-- a file is deleted while the entry of another is cached and that of a third is not -/
theorem delete_leaves_others :
    let w := inOrder { eviction := .never }
    let steps := [.setLength "a" 1 true, .flushCache true, .setLength "b" 2 true, .setLength "c" 3 true]
    ∃ g before after, w.play steps {} = (.ok (), g) ∧ (w.catalog.keys g).1 = .ok before ∧
      ((do w.catalog.delete "b"; w.catalog.keys : Run Registry (List Key)) g).1 = .ok after ∧
      ∀ k, k ∈ after ↔ k ≠ "b" ∧
        if g.cache.isLastInRow ⟨Catalog.listing, Catalog.listingColumn "b"⟩ then k ∈ g.catalog.dirty else k ∈ before :=
  delete_leaves (inOrder { eviction := .never }) _ "b"
    (inUse_apart ["a", "b", "c"] (by decide +kernel) (by decide +kernel))

/-- a file whose entry alone is cached takes the others off the list with it -/
theorem delete_leaves_none :
    let w := inOrder {}
    let steps : List Step := [.setLength "a" 1 true, .flushCache true, .setLength "b" 2 true]
    Catalog.Apart (InUse steps "b") ∧
      ((do w.play steps; w.catalog.keys : Run Registry (List Key)) {}).1 = .ok ["a", "b"] ∧
      ((do w.play steps; w.catalog.delete "b"; w.catalog.keys : Run Registry (List Key)) {}).1 = .ok [] := by
  intro w steps
  exact ⟨inUse_apart ["a", "b"] (by decide +kernel) (by decide +kernel), by decide +kernel, by decide +kernel⟩

end Ways

end Registry

end RowFiles
