/-
Directories whose data lie behind links and caches in one shared table.

On a dock each directory has a catalog over names of its own. Its data lie in rows of a table that all directories share,
behind links and a write-back cache of its own. A dock shows what its catalogs hold, its names and the tables that its quay
stands for.

- `Dock.Ways.directory_laws`: each directory works on its own shelf and leaves all that belongs to the others alone.
-/
import RowFiles.Proofs.Files.Directories
import RowFiles.Proofs.Store.Quays

namespace RowFiles

open Run

structure Dock where
  catalogs : Nat → CatalogState := fun _ => {}
  names : Nat → Table Column := fun _ => .empty
  quay : Quay := {}
  clock : UInt64 := 0
  /-- how often an order has been drawn -/
  drawn : Nat := 0

/-- how a dock works: how wide its tables are, the settings of its caches and directories, and the keys and orders that are
drawn -/
structure Dock.Ways where
  /-- bytes per column of the shared table -/
  width : Nat
  nameWidth : Nat → Nat
  linkWidth : Nat → Nat
  cached : Nat → CacheSettings
  settings : Nat → DirectorySettings
  /-- the `m`th key that is drawn, of a length -/
  fresh : Nat → Nat → Key
  /-- the order drawn at the `n`th time for some cells -/
  cells : Nat → List (Address Column) → List (Address Column)
  /-- the order drawn at the `n`th time for some files -/
  files : Nat → List Key → List Key
  positive : 0 < width
  /-- no key is drawn twice -/
  distinct : ∀ {v w m n}, fresh v m = fresh w n → m = n
  cells_perm : ∀ n as, (cells n as).Perm as
  files_perm : ∀ n keys, (files n keys).Perm keys

namespace Dock

/-- an order of a list of any kind, drawn from the dock -/
def draw {α : Type} (orders : Nat → List α → List α) (as : List α) : Run Dock (List α) :=
  fun g => (.ok (orders g.drawn as), { g with drawn := g.drawn + 1 })

def time : Part (Run Dock) UInt64 := Run.part Dock.clock fun t g => { g with clock := t }

namespace Ways

variable (w : Ways)

/-- the table that all directories share -/
def table : Store (Run Dock) :=
  Table.store (Run.part (fun g => g.quay.shared) fun t g => { g with quay := { g.quay with shared := t } }) w.width

def cache (i : Nat) : Cache (Run Dock) where
  inner := w.table.toRows
  settings := w.cached i
  state := Run.part (fun g => g.quay.caches i)
    fun x g => { g with quay := { g.quay with caches := Function.update g.quay.caches i x } }
  now := time.read
  order := draw w.cells

def links (i : Nat) : LinkTable (Run Dock) :=
  Yard.linkTable (fun g => g.quay.toYard) (fun y g => { g with quay := { g.quay with toYard := y } }) w.fresh
    (w.linkWidth i) i

def catalog (i : Nat) : Catalog (Run Dock) where
  rows := Table.rows (Run.part (fun g : Dock => g.names i) fun t g => { g with names := Function.update g.names i t })
    (w.nameWidth i)
  state := Run.part (fun g : Dock => g.catalogs i) fun x g => { g with catalogs := Function.update g.catalogs i x }
  order := draw w.files

/-- the `i`th directory: links over a cache over the shared table -/
def directory (i : Nat) : Directory (Run Dock) where
  identity := i
  data := (w.links i).store ((w.cache i).store w.table)
  catalog := w.catalog i
  settings := w.settings i
  now := time.read
  order := draw w.cells

theorem width_directory (i : Nat) : (w.directory i).data.width = w.width := rfl

end Ways

/-! ## Calls of caches -/

/-- the docks that differ from one in what a cache shows and in orders that have been drawn -/
def Around (g : Dock) (i : Nat) (r : Dock) (v : Layer CacheState Unit) : Prop :=
  ∃ n, r = { g with quay := g.quay.after i v, drawn := n }

variable {g r : Dock} {i : Nat} {v : Layer CacheState Unit}

theorem Around.held (h : g.Around i r v) : r.quay.caches i = v.held := by
  obtain ⟨_, rfl⟩ := h
  exact Function.update_self ..

theorem Around.beneath (h : g.Around i r v) : r.quay.shared = v.beneath := by
  obtain ⟨_, rfl⟩ := h
  rfl

theorem around_unique (g : Dock) (i : Nat) : Functional (g.Around i) := by
  intro r v w hv hw
  have held := hv.held.symm.trans hw.held
  have beneath := hv.beneath.symm.trans hw.beneath
  cases v
  cases w
  simp only at held beneath
  rw [held, beneath]

theorem around_self (g : Dock) (i : Nat) : g.Around i g (g.quay.seen i) := by
  refine ⟨g.drawn, ?_⟩
  simp only [Quay.after, Quay.seen, Function.update_eq_self]

/-- a call of a cache -/
theorem around_run {α : Type} {x : Run Dock α} {Q : α → Layer CacheState Unit → Prop}
    (h : Yields (g.Around i) x (g.quay.seen i) Q) :
    ∃ a v n, x g = (.ok a, { g with quay := g.quay.after i v, drawn := n }) ∧ Q a v := by
  obtain ⟨a, _, v, run, ⟨n, rfl⟩, hq⟩ := h.run (g.around_self i)
  exact ⟨a, v, n, run, hq⟩

theorem Ways.cache_laws (w : Ways) (g : Dock) (i : Nat) : (w.cache i).Laws (g.Around i) Eq never where
  inner _ _ := Table.rows_serve (fun _ _ hs => hs.beneath) (fun r _ u hs => by
    obtain ⟨n, rfl⟩ := hs
    exact ⟨n, rfl⟩) w.width never
  read v r hs := ⟨v, hs, _, rfl, hs.held, rfl⟩
  write x v r hs := by
    obtain ⟨n, rfl⟩ := hs
    refine ⟨{ v with held := x }, ⟨n, ?_⟩, (), rfl, rfl⟩
    simp only [Ways.cache, Run.part, Quay.after, Function.update_idem]
  now v r hs := ⟨v, hs, _, rfl, rfl⟩
  order as v r hs := by
    obtain ⟨n, rfl⟩ := hs
    exact ⟨v, ⟨n + 1, rfl⟩, _, rfl, w.cells_perm _ as, rfl⟩

/-! ## What a dock shows -/

/-- what a dock shows, if its quay stands for tables as `B` says -/
def Shows (B : Quay → (Nat → Table Column) → Prop) (g : Dock) (V : Shelves) : Prop :=
  g.catalogs = Shelf.catalog ∘ V ∧ g.names = Shelf.names ∘ V ∧ B g.quay (Shelf.data ∘ V)

theorem Shows.racked {B : Quay → (Nat → Table Column) → Prop} {V : Shelves} (h : Shows B g V) :
    Racked Dock.catalogs Dock.names (fun g => B g.quay) g V := h

namespace Ways

variable (w : Ways) (G : Nat → Prop) (E : Quay → Prop)

/-- a quay stands for tables, as far as the caches of the directories in `G` go, and `E` is true of it -/
def Stands (z : Quay) (D : Nat → Table Column) : Prop := (∃ P, z.Stowed G w.fresh P D) ∧ E z

/-- whatever the quay stands for, a catalog does not touch it -/
theorem catalog_laws (B : Quay → (Nat → Table Column) → Prop) (i : Nat) :
    (w.directory i).CatalogLaws i (Shows B) :=
  racked_laws Dock.catalogs Dock.names (fun g => B g.quay) rfl rfl (fun _ _ => ⟨rfl, rfl, fun _ => id⟩)
    (fun _ _ => ⟨rfl, rfl, fun _ => id⟩) fun ks V g hs => ⟨V, hs, _, rfl, w.files_perm g.drawn ks, rfl⟩

variable {w G E} {k : Key} {D : Nat → Table Column}

/-! ### Links -/

/-- **The row of a key is found**, or made if the key has none, and the quay stands for what it stood for. -/
theorem resolve_run {P : Table Column} (h : g.quay.Stowed G w.fresh P D) (i : Nat) (k : Key) :
    ∃ q z, (w.links i).resolve k g = (.ok q, { g with quay := z }) ∧ z.Stowed G w.fresh P D ∧ z.row i k = some q ∧
      Quay.Spares i g.quay z ∧ ∀ c, z.shared.get q c = g.quay.beneath i k c := by
  have legible : g.quay.toYard.Legible := h.wired.legible
  rw [links]
  cases there : g.quay.row i k with
  | some q =>
    refine ⟨q, g.quay, Yard.resolve_linked legible there, h, there, .refl .., fun c => ?_⟩
    rw [Quay.beneath, there, Option.bind_some]
  | none =>
    refine ⟨_, _, Yard.resolve_unlinked (fun _ _ => rfl) (fun _ _ _ => rfl) legible there,
      h.grown w.distinct (w.linkWidth i) there, ?_, Quay.spares_link .., fun c => ?_⟩
    · exact (g.quay.row_link i i k k _).trans (if_pos ⟨rfl, rfl⟩)
    · rw [Quay.beneath, there, Option.bind_none]
      exact h.get_fresh w.distinct (w.linkWidth i) c

/-- a call that changes nothing that is shown -/
theorem quiet_run {α : Type} {y : Run Dock α} {P : Table Column} {R : Table Column → α → Layer CacheState Unit → Prop}
    (stowed : g.quay.Stowed G w.fresh P D) (tends : G i)
    (asks : ∀ Q, (g.quay.seen i).Owns (g.quay.Owned i) Q () →
      Yields (g.Around i) y (g.quay.seen i) fun a v => v.Owns (g.quay.Owned i) Q () ∧ R Q a v) :
    ∃ Q a v m, y g = (.ok a, { g with quay := g.quay.after i v, drawn := m }) ∧
      (g.quay.after i v).Stowed G w.fresh P D ∧ Quay.Spares i g.quay (g.quay.after i v) ∧
      (∀ q, g.quay.Owned i q → ∀ c, Q.get q c = P.get q c) ∧ R Q a v := by
  obtain ⟨Q, before, agrees⟩ := stowed.owns tends
  obtain ⟨a, v, m, run, owns, hr⟩ := around_run (asks Q before)
  exact ⟨Q, a, v, m, run, stowed.asked before owns agrees rfl, stowed.spares before owns fun _ _ _ => rfl, agrees, hr⟩

/-- a call that changes one row of a directory -/
theorem change_run {α : Type} {y : Run Dock α} {change : Table Column → Key → Table Column} {P : Table Column} {q : Key}
    (stowed : g.quay.Stowed G w.fresh P D) (tends : G i) (there : g.quay.row i k = some q)
    (changes : ∀ Q, (g.quay.seen i).Owns (g.quay.Owned i) Q () →
      Yields (g.Around i) y (g.quay.seen i) fun _ v => v.Owns (g.quay.Owned i) (change Q q) ())
    (others : ∀ t q q', q ≠ q' → ∀ c, (change t q).get q' c = t.get q' c)
    (same : ∀ t u q, (∀ c, t.get k c = u.get q c) → ∀ c, (change t k).get k c = (change u q).get q c) :
    ∃ a v m P', y g = (.ok a, { g with quay := g.quay.after i v, drawn := m }) ∧
      (g.quay.after i v).Stowed G w.fresh P' (Function.update D i (change (D i) k)) ∧
      Quay.Spares i g.quay (g.quay.after i v) := by
  obtain ⟨Q, before, agrees⟩ := stowed.owns tends
  obtain ⟨a, v, m, run, owns⟩ := around_run (changes Q before)
  have ne {q' : Key} (other : ¬ g.quay.Owned i q') : q ≠ q' := fun e => other ⟨k, e ▸ there⟩
  have row (c : Column) : (D i).get k c = Q.get q c := by rw [agrees q ⟨k, there⟩, ← stowed.get_row there]
  exact ⟨a, v, m, _, run, stowed.changed before owns agrees there (others Q q) (others (D i) k) (same _ _ q row),
    stowed.spares before owns fun q' other => others Q q q' (ne other)⟩

section

variable {V : Shelves} {x : CatalogState} {n t : Table Column} (spared : ∀ {z z'}, Quay.Spares i z z' → E z → E z')

include spared

/-- a call goes to the row that a key links to -/
theorem linked_call {α : Type} {f : Key → Run Dock α} {Q : α → Table Column → Prop}
    (h : ∀ (g : Dock) P q, g.quay.Stowed G w.fresh P (Function.update (Shelf.data ∘ V) i t) →
      g.quay.row i k = some q → ∃ a z m u P', f q g = (.ok a, { g with quay := z, drawn := m }) ∧
        z.Stowed G w.fresh P' (Function.update (Shelf.data ∘ V) i u) ∧ Quay.Spares i g.quay z ∧ Q a u) :
    Yields (fun g t => Shows (w.Stands G E) g (Function.update V i ⟨x, n, t⟩)) ((w.links i).resolve k >>= f) t Q := by
  intro g hs
  obtain ⟨⟨P, stowed⟩, also⟩ := hs.2.2
  rw [Function.comp_update] at stowed
  obtain ⟨q, z, found, stowed, there, spares, _⟩ := resolve_run stowed i k
  obtain ⟨a, z', m, u, P', called, after, spares', hq⟩ := h { g with quay := z } P q stowed there
  rw [bind_of_ok found, called]
  exact ⟨u, hs.racked.setData (C := fun g : Dock => w.Stands G E g.quay) rfl rfl
    ⟨⟨P', after⟩, spared (spares.trans spares') also⟩, a, rfl, hq⟩

/-- a row is read behind its link -/
theorem linked_read {α : Type} {f : Key → Run Dock α} (val : Table Column → Key → α) (tends : G i)
    (reads : ∀ (g : Dock) q Q, g.quay.Owned i q → (g.quay.seen i).Owns (g.quay.Owned i) Q () →
      Yields (g.Around i) (f q) (g.quay.seen i) fun a v => v.Owns (g.quay.Owned i) Q () ∧ a = val Q q)
    (row_only : ∀ u q, (∀ c, t.get k c = u.get q c) → val t k = val u q) :
    Yields (fun g t => Shows (w.Stands G E) g (Function.update V i ⟨x, n, t⟩)) ((w.links i).resolve k >>= f) t
      fun a u => a = val t k ∧ u = t := by
  refine linked_call spared fun g P q stowed there => ?_
  obtain ⟨Q, _, v, m, run, after, spares, agrees, rfl⟩ :=
    quiet_run (R := fun Q a _ => a = val Q q) stowed tends fun Q before => reads g q Q ⟨k, there⟩ before
  refine ⟨_, _, m, t, P, run, after, spares, ?_, rfl⟩
  refine (row_only Q q fun c => ?_).symm
  rw [agrees q ⟨k, there⟩, ← stowed.get_row there, Function.update_self]

/-- what keeps a cache to its rows and changes none of them changes nothing that is shown -/
theorem quiet_yields {α : Type} {y : Run Dock α} (tends : G i)
    (asks : ∀ (g : Dock) Q, (g.quay.seen i).Owns (g.quay.Owned i) Q () →
      Yields (g.Around i) y (g.quay.seen i) fun _ v => v.Owns (g.quay.Owned i) Q ()) (V : Shelves) :
    Yields (Shows (w.Stands G E)) y V fun _ W => W = V := by
  intro g hs
  obtain ⟨catalogs, names, ⟨P, stowed⟩, also⟩ := hs
  obtain ⟨_, a, v, m, run, after, spares, _⟩ := quiet_run (R := fun _ _ _ => True) stowed tends fun Q before =>
    (asks g Q before).mono fun _ _ owns => ⟨owns, trivial⟩
  rw [run]
  exact ⟨V, ⟨catalogs, names, ⟨P, after⟩, spared spares also⟩, a, rfl, rfl⟩

/-- **Data behind links and a cache are plain data** to the directory. -/
theorem data_serve (tends : G i) (V : Shelves) (x : CatalogState) (n : Table Column) :
    (w.directory i).data.toRows.Serves (fun g t => Shows (w.Stands G E) g (Function.update V i ⟨x, n, t⟩)) Eq never where
  put k c u t := by
    refine Yields.tries (linked_call spared fun g P q stowed there => ?_)
    have others (t : Table Column) (q q' : Key) (other : q ≠ q') (c' : Column) : (t.put q c u).get q' c' = t.get q' c' := by
      rw [Table.get_put, if_neg fun here => other here.1]
    have same (t t' : Table Column) (q : Key) (row : ∀ c', t.get k c' = t'.get q c') (c' : Column) :
        (t.put k c u).get k c' = (t'.put q c u).get q c' := by
      rw [Table.get_put, Table.get_put, row]
      simp only [true_and]
    obtain ⟨_, v, m, P', run, after, spares⟩ := change_run stowed tends there
      (fun Q before => (w.cache_laws g i).owned_put (g.around_unique i) before ⟨k, there⟩ c u) others same
    rw [Function.update_self, Function.update_idem] at after
    exact ⟨(), _, m, _, P', run, after, spares, rfl⟩
  get k c t := (linked_read spared (fun t k => t.get k c) tends
    (fun g q _ own before => (w.cache_laws g i).owned_get before own c) fun _ _ cells => cells c).tries
  delete k t := by
    refine Yields.tries (linked_call spared fun g P q stowed there => ?_)
    have others (t : Table Column) (q q' : Key) (other : q ≠ q') (c : Column) : (t.delete q).get q' c = t.get q' c := by
      rw [Table.get_delete, if_neg other]
    have same (t t' : Table Column) (q : Key) (_ : ∀ c, t.get k c = t'.get q c) (c : Column) :
        (t.delete k).get k c = (t'.delete q).get q c := by
      rw [Table.get_delete, Table.get_delete, if_pos rfl, if_pos rfl]
    obtain ⟨_, v, m, P', run, after, spares⟩ := change_run stowed tends there
      (fun Q before => ((w.cache_laws g i).owned_delete before q).mono fun _ _ hv => hv.1) others same
    rw [Function.update_self, Function.update_idem] at after
    have unlinked := after.unlinked tends (k := k) fun c => by
      rw [Function.update_self, Table.get_delete, if_pos rfl]
    refine ⟨(), _, m, _, P', ?_, unlinked, spares.trans (Quay.spares_unlink ..), rfl⟩
    exact (bind_of_ok run).trans Yard.unlink_linkTable
  hasKey k t := (linked_read spared (fun t k => t.hasKey k) tends
    (fun g q _ _ before => (w.cache_laws g i).owned_hasKey (g.around_unique i) before q |>.mono fun _ _ h => h)
    fun _ _ => Table.hasKey_congr).tries
  values k t := (linked_read spared (fun t k => t.values k) tends
    (fun g q _ _ before => (w.cache_laws g i).owned_values (g.around_unique i) before q |>.mono fun _ _ h => h)
    fun _ _ => Table.values_congr).tries
  sync t := by
    refine Yields.tries fun g hs => ?_
    obtain ⟨_, shown, a, synced, rfl⟩ := quiet_yields spared tends
      (fun g _ before => ((w.cache_laws g i).owned_sync (g.around_unique i) before).mono fun _ _ hv => hv.1) _ g hs
    exact ⟨t, shown, a, synced, rfl⟩

/-- **Each directory works on its own shelf** and leaves all that belongs to the others alone: a fact `E` that is only
about others stays true. -/
theorem directory_laws (tends : G i) : (w.directory i).Laws i (Shows (w.Stands G E)) where
  toCatalogLaws := catalog_laws w _ i
  data V x n := data_serve spared tends V x n
  orderCells as V _ hs := ⟨V, hs, _, rfl, w.cells_perm _ as, rfl⟩

end

end Ways

end Dock

end RowFiles
