/-
Sites: directories over tables in memory.

Each directory of a site has a catalog over names of its own. Its data lie in a table of its own, or, if the plan of the
site says so, behind links in a table that all linked directories share, with a probe on it. A site shows what its
catalogs hold, its names and the tables that its yard stands for (`Plan.Shows`).

- `Plan.directory_laws`: each directory of a site works on its own shelf and leaves the others alone.
- `Plan.linkCopy_moves`: where two directories may copy by links, a file is moved with its row, and no byte is put.
-/
import RowFiles.Proofs.Files.Copies
import RowFiles.Proofs.Store.Links

namespace RowFiles

open Run

/-- lengths say nothing of rows -/
theorem Stocks.data_set_lengths (F : Stocks) (i : Nat) (m : Catalog.Index) :
    Stock.data ∘ Function.update F i { F i with lengths := m } = Stock.data ∘ F := by
  rw [Function.comp_update]
  exact Function.update_eq_self i _

/-- after a file of length `n` is moved with its row over another, which is replaced -/
def Stocks.moved (F : Stocks) (i : Nat) (src : Key) (j : Nat) (dst : Key) (n : UInt64) : Stocks :=
  let F := Function.update F j ((F j).without dst)
  let F := Function.update F j { F j with lengths := (F j).lengths.insert dst n }
  let F := Function.update F i { F i with lengths := (F i).lengths.erase src }
  fun m => { F m with data := Wired.moved (Stock.data ∘ F) i src j dst m }

section Moved

variable {F : Stocks} {i j : Nat} {src dst : Key} (n : UInt64)

theorem Stocks.getElem?_moved (m : Nat) (k : Key) : (F.moved i src j dst n m).lengths[k]? =
    if i = m ∧ src = k then none else if j = m ∧ dst = k then some n else (F m).lengths[k]? := by
  have set (G : Stocks) (l l' : Nat) (x : Stock) :
      (Function.update G l x l').lengths[k]? = if l = l' then x.lengths[k]? else (G l').lengths[k]? := by
    by_cases here : l = l'
    · subst here
      simp
    · rw [Function.update_of_ne (Ne.symm here), if_neg here]
  simp only [Stocks.moved, set, Function.update_self, Std.ExtTreeMap.getElem?_erase, Std.ExtTreeMap.getElem?_insert,
    Std.LawfulEqCmp.compare_eq_iff_eq, Stock.getElem?_without]
  grind

theorem Stocks.get_moved (other : ¬ (i = j ∧ src = dst)) (m : Nat) (k : Key) (c : Column) :
    (F.moved i src j dst n m).data.get k c = if i = m ∧ src = k then none
      else if j = m ∧ dst = k then (F i).data.get src c else (F m).data.get k c := by
  have cleared (m : Nat) (k : Key) (kept : ¬ (j = m ∧ dst = k)) :
      ((Stock.data ∘ Function.update F j ((F j).without dst)) m).get k c = (F m).data.get k c := by
    by_cases here : m = j
    · subst here
      rw [Function.comp_apply, Function.update_self, Stock.get_without, if_neg fun e => kept ⟨rfl, e⟩]
    · rw [Function.comp_apply, Function.update_of_ne here]
  simp only [Stocks.moved, Stocks.data_set_lengths, Wired.get_moved]
  split_ifs with gone here
  · rfl
  · exact cleared i src fun e => other ⟨e.1.symm, e.2.symm⟩
  · exact cleared m k here

end Moved

/-- where both directories allow it, both are linked and their widths agree, a copy takes the row -/
theorem Directory.linkCopy_linked {σ : Type} {source dest : Directory (Run σ)} {l l' : Linker (Run σ)}
    (fast : source.settings.fastCopy = true) (fast' : dest.settings.fastCopy = true) (links : source.data.linker = some l)
    (links' : dest.data.linker = some l') (same : source.data.width = dest.data.width) (src dst : Key) :
    linkCopy source src dest dst = (do
      let length ← source.length src
      dest.removeIfPresent dst
      let physical ← l.resolve src
      l'.link dst physical
      dest.catalog.setLength dst length true
      source.catalog.delete src
      l.unlink src) := by
  have allowed : (source.settings.fastCopy && dest.settings.fastCopy) = true := by rw [fast, fast', Bool.true_and]
  simp only [linkCopy, allowed, links, links', same, Bool.not_true, Bool.false_eq_true, if_false, ne_eq, not_true_eq_false]

/-- where this is not so, nothing has been done when a copy falls back on the bytes -/
theorem Directory.linkCopy_unfit {σ : Type} {source dest : Directory (Run σ)}
    (stays : ¬ (source.settings.fastCopy = true ∧ dest.settings.fastCopy = true ∧ source.data.linker.isSome ∧
      dest.data.linker.isSome ∧ source.data.width = dest.data.width)) (src dst : Key) :
    ∃ fault, linkCopy source src dest dst = throw (.fastCopy fault) := by
  rw [linkCopy]
  by_cases fast : (source.settings.fastCopy && dest.settings.fastCopy) = true
  · simp only [fast, Bool.not_true, Bool.false_eq_true, if_false]
    rw [Bool.and_eq_true] at fast
    cases links : source.data.linker with
    | none => exact ⟨_, rfl⟩
    | some l =>
      cases links' : dest.data.linker with
      | none => exact ⟨_, rfl⟩
      | some l' =>
        have differ : source.data.width ≠ dest.data.width := fun same =>
          stays ⟨fast.1, fast.2, by rw [links]; rfl, by rw [links']; rfl, same⟩
        simp only [if_pos differ]
        exact ⟨_, rfl⟩
  · simp only [fast, Bool.not_false, if_true]
    exact ⟨_, rfl⟩

/-! ## Sites and plans -/

structure Site where
  catalogs : Nat → CatalogState := fun _ => {}
  names : Nat → Table Column := fun _ => .empty
  yard : Yard := {}
  /-- how often an order has been drawn -/
  orders : Nat := 0

/-- how the directories of a site are made, with the keys and the orders that are drawn: a run draws finitely many of them,
and any different keys can be the first ones -/
structure Plan where
  linked : Nat → Bool
  /-- bytes per column -/
  width : Nat → Nat
  nameWidth : Nat → Nat
  linkWidth : Nat → Nat
  settings : Nat → DirectorySettings
  /-- the `m`th key that is drawn, of a length -/
  fresh : Nat → Nat → Key
  walkKeys : Nat → List Key → List Key
  walkCells : Nat → List (Address Column) → List (Address Column)
  positive : ∀ i, 0 < width i
  /-- no key is drawn twice -/
  distinct : ∀ {v w m n}, fresh v m = fresh w n → m = n
  permKeys : ∀ n ks, (walkKeys n ks).Perm ks
  permCells : ∀ n as, (walkCells n as).Perm as

/-- a plan with orders backwards, and keys of more and more letters -/
def Plan.simple (linked : Nat → Bool) (width : Nat → Nat) (positive : ∀ i, 0 < width i) : Plan where
  linked := linked
  width := width
  nameWidth _ := 64
  linkWidth _ := 32
  settings _ := {}
  fresh _ m := String.ofList (List.replicate m 'k')
  walkKeys _ := List.reverse
  walkCells _ := List.reverse
  positive := positive
  distinct := letters_distinct
  permKeys _ := List.reverse_perm
  permCells _ := List.reverse_perm

namespace Plan

variable (p : Plan)

/-! ## Directories -/

/-- the order drawn at the `n`th time for some items is `walk n` of them -/
def draw {α : Type} (walk : Nat → List α → List α) (as : List α) : Run Site (List α) :=
  fun s => (.ok (walk s.orders as), { s with orders := s.orders + 1 })

def catalog (i : Nat) : Catalog (Run Site) where
  rows := Table.rows (Run.part (fun s : Site => s.names i) fun t s => { s with names := Function.update s.names i t })
    (p.nameWidth i)
  state := Run.part (fun s : Site => s.catalogs i) fun x s => { s with catalogs := Function.update s.catalogs i x }
  order := draw p.walkKeys

/-- a part of the yard -/
def yardPart {α : Type} (get : Yard → α) (set : α → Yard → Yard) : Part (Run Site) α :=
  Run.part (fun s => get s.yard) fun a s => { s with yard := set a s.yard }

/-- a table of its own -/
def plainStore (i : Nat) : Store (Run Site) :=
  Table.store (yardPart (fun y => y.own i) fun t y => { y with own := Function.update y.own i t }) (p.width i)

/-- the probe on the shared table -/
def probe : Probe (Run Site) Unit := ⟨yardPart Yard.probe fun x y => { y with probe := x }, fun _ => pure ()⟩

/-- the shared table, in columns of a width -/
def sharedStore (i : Nat) : Store (Run Site) :=
  probe.store (Table.store (yardPart Yard.shared fun t y => { y with shared := t }) (p.width i))

def drawKey (w : Nat) : Run Site Key :=
  fun s => (.ok (p.fresh w s.yard.made), { s with yard := { s.yard with made := s.yard.made + 1 } })

def linksOf (i : Nat) : LinkTable (Run Site) where
  links := Table.rows (yardPart (fun y => y.links i) fun t y => { y with links := Function.update y.links i t })
    (p.linkWidth i)
  freshKey := p.drawKey

def data (i : Nat) : Store (Run Site) :=
  if p.linked i then (p.linksOf i).store (p.sharedStore i) else p.plainStore i

/-- the `i`th directory; nothing on a site asks for the time -/
def directory (i : Nat) : Directory (Run Site) where
  identity := i
  data := p.data i
  catalog := p.catalog i
  settings := p.settings i
  now := pure 0
  order := draw p.walkCells

variable {p} in
theorem data_plain {i : Nat} (plain : p.linked i = false) : p.data i = p.plainStore i := by simp [data, plain]

variable {p} in
theorem data_linked {i : Nat} (is_linked : p.linked i = true) : p.data i = (p.linksOf i).store (p.sharedStore i) := by
  simp [data, is_linked]

theorem width_data (i : Nat) : (p.data i).width = p.width i := by
  cases linked : p.linked i with
  | false =>
    rw [data_plain linked]
    rfl
  | true =>
    rw [data_linked linked]
    rfl

theorem width_directory (i : Nat) : (p.directory i).data.width = p.width i := p.width_data i

theorem positive_directory (i : Nat) : 0 < (p.directory i).data.width := p.width_directory i ▸ p.positive i

/-! ## What a site shows -/

/-- what a site shows, if its yard stands for tables as `B` says -/
def Shows (B : Yard → (Nat → Table Column) → Prop) (s : Site) (V : Shelves) : Prop :=
  s.catalogs = Shelf.catalog ∘ V ∧ s.names = Shelf.names ∘ V ∧ B s.yard (Shelf.data ∘ V)

/-- a yard stands for tables; `ok` says how many bytes may have been put into the shared one -/
def Stands (ok : Nat → Prop) (y : Yard) (D : Nat → Table Column) : Prop :=
  Wired p.linked p.fresh y D ∧ ok y.probe.bytes

variable {p} {B : Yard → (Nat → Table Column) → Prop}

theorem Shows.racked {s : Site} {V : Shelves} (h : Shows B s V) :
    Racked Site.catalogs Site.names (fun s => B s.yard) s V := h

/-- drawing an order changes nothing that is shown -/
theorem draw_shows {α : Type} {walk : Nat → List α → List α} (perm : ∀ n as, (walk n as).Perm as) (as : List α)
    (V : Shelves) : Yields (Shows B) (draw walk as) V fun bs W => bs.Perm as ∧ W = V := by
  intro s hs
  exact ⟨V, hs, _, rfl, perm s.orders as, rfl⟩

/-- whatever the yard stands for, a catalog does not touch it -/
theorem catalogLaws (p : Plan) (B : Yard → (Nat → Table Column) → Prop) (i : Nat) :
    (p.directory i).CatalogLaws i (Shows B) :=
  racked_laws Site.catalogs Site.names (fun s => B s.yard) rfl rfl (fun _ _ => ⟨rfl, rfl, fun _ => id⟩)
    (fun _ _ => ⟨rfl, rfl, fun _ => id⟩) fun ks V => draw_shows p.permKeys ks V

/-! ## Data -/

section

variable {s : Site} {V : Shelves} {i : Nat} {x : CatalogState} {n t : Table Column} {ok : Nat → Prop}

/-- other data are shown once the yard has changed -/
theorem set_data (h : Shows B s (Function.update V i ⟨x, n, t⟩)) {C : Yard → (Nat → Table Column) → Prop} {y : Yard}
    {u : Table Column} (stands : C y (Function.update (Shelf.data ∘ V) i u)) :
    Shows C { s with yard := y } (Function.update V i ⟨x, n, u⟩) :=
  Racked.setData (C := fun s : Site => C s.yard) h.racked rfl rfl stands

/-- a table of its own serves, whatever lies in the shared one -/
theorem plainStore_serve (plain : p.linked i = false) (V : Shelves) (x : CatalogState) (n : Table Column) :
    (p.plainStore i).toRows.Serves (fun s t => Shows (p.Stands ok) s (Function.update V i ⟨x, n, t⟩)) Eq never := by
  refine Table.rows_serve (fun s t hs => ?_) (fun s t u hs => ?_) (p.width i) never
  · obtain ⟨_, _, wired, _⟩ := hs
    have own := wired.own i plain
    rw [Function.comp_apply, Function.update_self] at own
    exact own.symm
  · obtain ⟨wired, bytes⟩ := hs.2.2
    have replaced := wired.replace plain u
    rw [Function.comp_update, Function.update_idem] at replaced
    exact set_data hs ⟨replaced, bytes⟩

end

/-- the sites that differ from one in the shared table and in what its probe has counted -/
def Around (s : Site) (ok : Nat → Prop) (r : Site) (t : Table Column) : Prop :=
  ∃ x : ProbeState Unit, x.rules = [] ∧ ok x.bytes ∧ r = { s with yard := { s.yard with shared := t, probe := x } }

/-- a probe without rules counts calls -/
theorem before_counts (s : Site) {ok : Nat → Prop} (q : Call) (more : ∀ b, ok b → ok (b + q.bytes)) (t : Table Column) :
    Yields (Around s ok) (probe.before q) t fun _ u => u = t := by
  intro r hr
  obtain ⟨⟨calls, bytes, rules⟩, quiet, allowed, rfl⟩ := hr
  obtain rfl : rules = [] := quiet
  exact ⟨t, ⟨⟨q.name :: calls, bytes + q.bytes, []⟩, rfl, more bytes allowed, rfl⟩, (), rfl, rfl⟩

theorem sharedStore_serve (s : Site) (i : Nat) :
    (p.sharedStore i).toRows.Serves (Around s fun _ => True) Eq never := by
  have table : (Table.rows (yardPart Yard.shared fun t y => { y with shared := t }) (p.width i)).Serves
      (Around s fun _ => True) Eq never := by
    refine Table.rows_serve (fun r t hr => ?_) (fun r t u hr => ?_) (p.width i) never
    · obtain ⟨x, _, _, rfl⟩ := hr
      rfl
    · obtain ⟨x, quiet, bytes, rfl⟩ := hr
      exact ⟨x, quiet, bytes, rfl⟩
  exact table.guarded fun q t => (before_counts s q (fun _ _ => trivial) t).tries

/-- a deletion puts no bytes -/
theorem sharedStore_delete (s : Site) (i : Nat) (ok : Nat → Prop) (k : Key) (t : Table Column) :
    Yields (Around s ok) ((p.sharedStore i).delete k) t fun _ u => u = t.delete k := by
  refine (before_counts s (.delete k) (fun _ hb => hb) t).step ?_
  rw [Table.store, Table.rows_delete]
  intro r hr
  obtain ⟨x, quiet, bytes, rfl⟩ := hr
  exact ⟨_, ⟨x, quiet, bytes, rfl⟩, (), rfl, rfl⟩

/-- a call of the shared store from a site -/
theorem around_run {α : Type} {s : Site} {ok : Nat → Prop} {x : Run Site α} {Q : α → Table Column → Prop}
    (h : Yields (Around s ok) x s.yard.shared Q) (quiet : s.yard.probe.rules = []) (allowed : ok s.yard.probe.bytes) :
    ∃ a u r, x s = (.ok a, { s with yard := { s.yard with shared := u, probe := r } }) ∧ r.rules = [] ∧ ok r.bytes ∧
      Q a u := by
  obtain ⟨a, _, u, run, ⟨r, quiet', allowed', rfl⟩, hq⟩ := h.run ⟨s.yard.probe, quiet, allowed, rfl⟩
  exact ⟨a, u, r, run, quiet', allowed', hq⟩

/-! ### Linked data -/

section

variable {s : Site} {V : Shelves} {i : Nat} {ok : Nat → Prop}

theorem linksOf_eq (p : Plan) (i : Nat) :
    p.linksOf i = Yard.linkTable Site.yard (fun y s => { s with yard := y }) p.fresh (p.linkWidth i) i := rfl

theorem linksOf_unlink (p : Plan) (i : Nat) (k : Key) (s : Site) :
    (p.linksOf i).unlink k s = (.ok (), { s with yard := s.yard.unlink i k }) := by
  rw [linksOf_eq]
  exact Yard.unlink_linkTable

/-- **The row of a key is found**, or made if the key has none, and nothing that is shown changes. -/
theorem resolve_run (h : Shows (p.Stands ok) s V) (k : Key) : ∃ q r, (p.linksOf i).resolve k s = (.ok q, r) ∧
    Shows (p.Stands ok) r V ∧ r.yard.row i k = some q ∧ r.yard.probe = s.yard.probe := by
  obtain ⟨catalogs, names, wired, bytes⟩ := h
  rw [linksOf_eq]
  cases there : s.yard.row i k with
  | some q => exact ⟨q, s, Yard.resolve_linked wired.legible there, ⟨catalogs, names, wired, bytes⟩, there, rfl⟩
  | none =>
    have grown := wired.grow p.distinct (p.linkWidth i) there
    refine ⟨_, _, Yard.resolve_unlinked (fun _ _ => rfl) (fun _ _ _ => rfl) wired.legible there,
      ⟨catalogs, names, grown, bytes⟩, ?_, rfl⟩
    exact (s.yard.row_link i i k k _).trans (if_pos ⟨rfl, rfl⟩)

variable {x : CatalogState} {n t : Table Column}

/-- a call goes to the row that a key links to -/
theorem linked_call {α : Type} {k : Key} {f : Key → Run Site α} {P : α → Table Column → Prop}
    (h : ∀ q r, p.Stands ok r.yard (Function.update (Shelf.data ∘ V) i t) → r.yard.row i k = some q →
      ∃ a y u, f q r = (.ok a, { r with yard := y }) ∧ p.Stands ok y (Function.update (Shelf.data ∘ V) i u) ∧ P a u) :
    Yields (fun s t => Shows (p.Stands ok) s (Function.update V i ⟨x, n, t⟩)) ((p.linksOf i).resolve k >>= f) t P := by
  intro s hs
  obtain ⟨q, r, run, shown, row, _⟩ := resolve_run hs k
  have stands := shown.2.2
  rw [Function.comp_update] at stands
  obtain ⟨a, y, u, called, after, hp⟩ := h q r stands row
  rw [bind_of_ok run, called]
  exact ⟨u, set_data shown after, a, rfl, hp⟩

/-- a row is read behind its link -/
theorem linked_read {α : Type} {k : Key} {f : Key → Run Site α} {g : Table Column → Key → α}
    (is_linked : p.linked i = true) (reads : ∀ q r, Yields (Around r fun _ => True) (f q) r.yard.shared fun a u =>
      a = g r.yard.shared q ∧ u = r.yard.shared)
    (row_only : ∀ u q, (∀ c, t.get k c = u.get q c) → g t k = g u q) :
    Yields (fun s t => Shows (p.Stands fun _ => True) s (Function.update V i ⟨x, n, t⟩))
      ((p.linksOf i).resolve k >>= f) t fun a u => a = g t k ∧ u = t := by
  refine linked_call fun q r stands row => ?_
  obtain ⟨wired, _⟩ := stands
  obtain ⟨_, _, pr, run, quiet, _, rfl, rfl⟩ := around_run (reads q r) wired.quiet trivial
  have cells (c : Column) : t.get k c = r.yard.shared.get q c := by
    have cell := wired.get_row is_linked row c
    rwa [Function.update_self] at cell
  exact ⟨_, _, t, run, ⟨wired.count quiet, trivial⟩, (row_only _ q cells).symm, rfl⟩

/-- a row is deleted with its link, and no byte is put -/
theorem linked_delete (is_linked : p.linked i = true) (k : Key) :
    Yields (fun s t => Shows (p.Stands ok) s (Function.update V i ⟨x, n, t⟩))
      (((p.linksOf i).rows (p.sharedStore i).toRows).delete k) t fun _ u => u = t.delete k := by
  refine linked_call fun q r stands row => ?_
  obtain ⟨wired, allowed⟩ := stands
  obtain ⟨_, _, pr, run, quiet, allowed', rfl⟩ := around_run (sharedStore_delete r i ok q _) wired.quiet allowed
  have deleted := wired.delete is_linked row
  rw [Function.update_self, Function.update_idem] at deleted
  refine ⟨(), ({ r.yard with shared := r.yard.shared.delete q, probe := pr } : Yard).unlink i k, _, ?_,
    ⟨deleted.count quiet, allowed'⟩, rfl⟩
  exact (bind_of_ok run).trans (linksOf_unlink ..)

/-- **Linked data serve** as the tables that the yard stands for. -/
theorem linkedStore_serve (is_linked : p.linked i = true) (V : Shelves) (x : CatalogState) (n : Table Column) :
    ((p.linksOf i).rows (p.sharedStore i).toRows).Serves
      (fun s t => Shows (p.Stands fun _ => True) s (Function.update V i ⟨x, n, t⟩)) Eq never where
  put k c v t := by
    refine Yields.tries (linked_call fun q r stands row => ?_)
    obtain ⟨wired, _⟩ := stands
    obtain ⟨_, _, pr, run, quiet, _, rfl⟩ :=
      around_run ((sharedStore_serve r i).put q c v _ |>.yields id) wired.quiet trivial
    have changed := wired.put is_linked row c v
    rw [Function.update_self, Function.update_idem] at changed
    exact ⟨(), _, _, run, ⟨changed.count quiet, trivial⟩, rfl⟩
  get k c t := (linked_read (g := fun t k => t.get k c) is_linked
    (fun q r => (sharedStore_serve r i).get q c _ |>.yields id) fun _ _ cells => cells c).tries
  delete k t := (linked_delete is_linked k).tries
  hasKey k t := (linked_read is_linked (fun q r => (sharedStore_serve r i).hasKey q _ |>.yields id)
    fun _ _ => Table.hasKey_congr).tries
  values k t := (linked_read is_linked (fun q r => (sharedStore_serve r i).values q _ |>.yields id)
    fun _ _ => Table.values_congr).tries
  sync t := by
    refine Yields.tries fun s hs => ?_
    have wired := hs.2.2.1
    obtain ⟨_, _, pr, run, quiet, _, rfl⟩ := around_run ((sharedStore_serve s i).sync _ |>.yields id) wired.quiet trivial
    have counted := wired.count quiet
    rw [Function.comp_update] at counted
    have after : (((p.linksOf i).rows (p.sharedStore i).toRows).sync s).2 = _ := congrArg Prod.snd run
    rw [after]
    exact ⟨t, set_data hs ⟨counted, trivial⟩, (), congrArg Prod.fst run, rfl⟩

end

/-! ## Directories at work -/

/-- what a site shows of its directories -/
def Shown (p : Plan) : Site → Shelves → Prop := Shows (p.Stands fun _ => True)

/-- **Each directory works on its own shelf**, wherever its data lie. -/
theorem directory_laws (p : Plan) (i : Nat) : (p.directory i).Laws i p.Shown where
  toCatalogLaws := catalogLaws p _ i
  data V x n := by
    cases linked : p.linked i with
    | false =>
      rw [directory, data_plain linked]
      exact plainStore_serve linked V x n
    | true =>
      rw [directory, data_linked linked]
      exact linkedStore_serve linked V x n
  orderCells as V := draw_shows p.permCells as V

/-- no byte is put where a row is deleted -/
theorem deletes_quietly (p : Plan) (i : Nat) (ok : Nat → Prop) : (p.directory i).Deletes i (Shows (p.Stands ok)) := by
  intro k V
  have deleted : Yields (fun s t => Shows (p.Stands ok) s (Function.update V i { V i with data := t }))
      ((p.data i).delete k) (V i).data fun _ u => u = (V i).data.delete k := by
    cases linked : p.linked i with
    | false =>
      rw [data_plain linked]
      exact (plainStore_serve linked V _ _).delete k _ |>.yields id
    | true =>
      rw [data_linked linked]
      exact linked_delete linked k
  refine (Directory.Laws.onData deleted).mono ?_
  intro _ _ hW
  obtain ⟨_, rfl, rfl⟩ := hW
  rfl

/-! ## Files that are moved -/

variable (p) in
/-- files move with their rows from one directory to another -/
def Moves (i j : Nat) : Prop :=
  (p.settings i).fastCopy = true ∧ (p.settings j).fastCopy = true ∧ p.linked i = true ∧ p.linked j = true ∧
    p.width i = p.width j

instance (i j : Nat) : Decidable (p.Moves i j) := inferInstanceAs (Decidable (_ ∧ _))

theorem linker_data (i : Nat) : (p.data i).linker = if p.linked i then some (p.linksOf i).linker else none := by
  cases linked : p.linked i with
  | false =>
    rw [data_plain linked]
    rfl
  | true =>
    rw [data_linked linked]
    rfl

theorem isSome_linker_data (i : Nat) : (p.data i).linker.isSome = p.linked i := by
  rw [linker_data]
  cases p.linked i with
  | false => rfl
  | true => rfl

/-- where files do not move, nothing has been done when a copy falls back on the bytes -/
theorem linkCopy_refused {i j : Nat} (stays : ¬ p.Moves i j) (src dst : Key) :
    ∃ fault, Directory.linkCopy (p.directory i) src (p.directory j) dst = throw (.fastCopy fault) := by
  refine Directory.linkCopy_unfit (fun fit => stays ?_) src dst
  simp only [width_directory] at fit
  simp only [directory, isSome_linker_data] at fit
  exact fit

theorem linkCopy_eq {i j : Nat} (moves : p.Moves i j) (src dst : Key) :
    Directory.linkCopy (p.directory i) src (p.directory j) dst = (do
      let length ← (p.directory i).length src
      (p.directory j).removeIfPresent dst
      let physical ← (p.linksOf i).resolve src
      (p.linksOf j).link dst physical
      (p.directory j).catalog.setLength dst length true
      (p.directory i).catalog.delete src
      (p.linksOf i).unlink src) := by
  obtain ⟨fast, fast', linked, linked', same⟩ := moves
  have sourceLinks : (p.directory i).data.linker = some (p.linksOf i).linker := by
    rw [directory, linker_data, linked]
    rfl
  have destLinks : (p.directory j).data.linker = some (p.linksOf j).linker := by
    rw [directory, linker_data, linked']
    rfl
  have widths : (p.directory i).data.width = (p.directory j).data.width := by
    rw [width_directory, width_directory, same]
  exact Directory.linkCopy_linked fast fast' sourceLinks destLinks widths src dst

/-- **A file is moved** with its row, and no byte is put. -/
theorem linkCopy_moves {U : Key → Prop} {F : Stocks} {ok : Nat → Prop} {i j : Nat} {src dst : Key} (moves : p.Moves i j)
    (usedSrc : U src) (usedDst : U dst) (other : ¬ (i = j ∧ src = dst))
    (absent : dst ∉ (F j).lengths → ∀ c, (F j).data.get dst c = none) {n : UInt64}
    (found : (F i).lengths[src]? = some n) :
    Yields (Stocked (Shows (p.Stands ok)) U) (Directory.linkCopy (p.directory i) src (p.directory j) dst) F
      fun _ G => G = F.moved i src j dst n := by
  rw [linkCopy_eq moves]
  obtain ⟨_, _, linked, linked', _⟩ := moves
  refine ((catalogLaws p _ i).lengthOf found).next ?_
  refine ((catalogLaws p _ j).removedIfPresent (deletes_quietly p j ok) usedDst absent).step ?_
  intro s hs
  obtain ⟨V, shown, keeps⟩ := hs
  obtain ⟨q, r, found, shown, row, _⟩ := resolve_run shown src (i := i)
  have linked_to : (p.linksOf j).link dst q r = (.ok (), { r with yard := r.yard.link j dst q }) := rfl
  rw [bind_of_ok found, bind_of_ok linked_to]
  -- two keys share the row from here on, which does not matter to catalogs
  have start : Stocked (Shows fun y _ => y = r.yard.link j dst q) U { r with yard := r.yard.link j dst q } _ :=
    ⟨V, ⟨shown.1, shown.2.1, rfl⟩, keeps⟩
  obtain ⟨_, r₁, _, recorded, shown₁, rfl⟩ := ((catalogLaws p _ j).recorded usedDst n).run start
  obtain ⟨_, r₂, _, forgotten, shown₂, rfl⟩ := ((catalogLaws p _ i).forgotten usedSrc).run shown₁
  rw [bind_of_ok recorded, bind_of_ok forgotten]
  rw [linksOf_unlink]
  obtain ⟨W, ⟨catalogs, names, same⟩, keeps'⟩ := shown₂
  refine ⟨_, ⟨fun m => { W m with data := Wired.moved (Shelf.data ∘ V) i src j dst m }, ⟨catalogs, names, ?_⟩,
    fun m => ?_⟩, (), rfl, rfl⟩
  · obtain ⟨wired, bytes⟩ := shown.2.2
    have empty (c : Column) : ((Shelf.data ∘ V) j).get dst c = none := by
      rw [Function.comp_apply, (keeps j).data, Function.update_self, Stock.get_without, if_pos rfl]
    rw [same]
    exact ⟨wired.move linked linked' row empty other, bytes⟩
  · have data : Shelf.data ∘ V = Stock.data ∘ Function.update F j ((F j).without dst) := funext fun m => (keeps m).data
    refine ⟨(keeps' m).lengths, (keeps' m).orderly, ?_⟩
    rw [Stocks.moved, Stocks.data_set_lengths, Stocks.data_set_lengths, data]

end Plan

end RowFiles
