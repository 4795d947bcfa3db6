/-
Directories of files.

A state shows a shelf for each directory, by number: what its catalog holds, the rows of its names and the rows of its
data. `Directory.Laws` is what a directory builds on: its calls work on its own shelf and leave the others alone, though
the rows of several directories may lie in one store.

A shelf stands for a stock: the length of each file that is there, and the rows. What is shown is told in stocks
(`Stocked`), and each operation is told by what it does to the stock of its directory:

- `Directory.Laws.session`: a session of writes and flushes leaves what its steps come to;
- `Directory.CatalogLaws.removed`: a file that is removed leaves an empty row and no length;
- `Directory.Laws.stretch`: a reader opened on a file reads any stretch of its row;
- `Directory.CatalogLaws.list`: the list of a directory is the files that have a length.

A session needs buffers, and positions behind what it writes; where it would run out of them it fails
(`Directory.Laws.session_refused`).
-/
import RowFiles.Proofs.Carried
import RowFiles.Proofs.Files.Listings
import RowFiles.Proofs.Files.Readers
import RowFiles.Proofs.Files.Sessions

namespace RowFiles

open Run

theorem Writer.act_carried {m n : Type → Type} [Monad m] [MonadExceptOf Error m] [Monad n] [MonadExceptOf Error n]
    [LawfulMonad m] [LawfulMonad n] (φ : Carry m n) (w : Writer m) (puts : ∀ k col v, φ.steady (w.rows.put k col v))
    (persists : ∀ k col v, φ.steady (w.catalog.rows.put k col v)) (step : Writer.Step) :
    φ.run (w.act step) = (w.carried φ).act step := by
  cases step with
  | write buf => exact w.write_carried φ puts buf
  | flush => exact w.flush_carried φ puts persists

/-! ## Shelves -/

/-- what is shown of a directory -/
structure Shelf where
  catalog : CatalogState := {}
  names : Table Column := .empty
  data : Table Column := .empty

/-- a shelf for each directory -/
abbrev Shelves := Nat → Shelf

variable {σ : Type}

/-- what the catalog of directory `i` builds on -/
structure Directory.CatalogLaws (d : Directory (Run σ)) (i : Nat) (R : σ → Shelves → Prop) : Prop where
  names : ∀ V x t, d.catalog.rows.Serves (fun s n => R s (Function.update V i ⟨x, n, t⟩)) Eq never
  trims : ∀ V x t, d.catalog.rows.Trims (fun s n => R s (Function.update V i ⟨x, n, t⟩)) never
  read : ∀ V, Yields R d.catalog.state.read V fun x W => x = (V i).catalog ∧ W = V
  write : ∀ x V, Yields R (d.catalog.state.write x) V fun _ W => W = Function.update V i { V i with catalog := x }
  orderKeys : ∀ ks V, Yields R (d.catalog.order ks) V fun ls W => ls.Perm ks ∧ W = V

/-- what directory `i` builds on -/
structure Directory.Laws (d : Directory (Run σ)) (i : Nat) (R : σ → Shelves → Prop) : Prop
    extends Directory.CatalogLaws d i R where
  data : ∀ V x n, d.data.toRows.Serves (fun s t => R s (Function.update V i ⟨x, n, t⟩)) Eq never
  orderCells : ∀ as V, Yields R (d.order as) V fun bs W => bs.Perm as ∧ W = V

/-- the shelves of a catalog, with the rest -/
def Layer.onShelf (i : Nat) (v : Layer CatalogState Shelves) : Shelves :=
  Function.update v.rest i ⟨v.held, v.beneath, (v.rest i).data⟩

/-- a catalog and a writer over the rows of one shelf, with the other shelves and a reader -/
abbrev Bench := Layer CatalogState (Layer WriterState (Shelves × ReaderState))

/-- the shelves of a catalog and a writer, with the rest, and what is in the room -/
def Layer.atBench (i : Nat) (u : Bench) : Shelves × Room :=
  (Function.update u.rest.rest.1 i ⟨u.held, u.beneath, u.rest.beneath⟩, (u.rest.rest.2, u.rest.held))

/-- the shelves of what a reader reads, with the rest, and what is in the room -/
def Layer.inHand (i : Nat) (v : Layer ReaderState (Shelves × WriterState)) : Shelves × Room :=
  (Function.update v.rest.1 i { v.rest.1 i with data := v.beneath }, (v.held, v.rest.2))

/-- a state beside a room -/
def Beside (R : σ → Shelves → Prop) (p : σ × Room) (v : Shelves × Room) : Prop := R p.1 v.1 ∧ p.2 = v.2

namespace Directory

variable {d : Directory (Run σ)} {i : Nat} {R : σ → Shelves → Prop}

theorem CatalogLaws.catalog (laws : d.CatalogLaws i R) : d.catalog.Laws (fun s v => R s (v.onShelf i)) Eq where
  inner x r := laws.names r x (r i).data
  read v := by
    refine (laws.read (v.onShelf i)).through (fun _ hs => hs) ?_
    intro x _ hx
    obtain ⟨rfl, rfl⟩ := hx
    exact ⟨v, fun _ hs => hs, by rw [Layer.onShelf, Function.update_self], rfl⟩
  write x v := by
    refine (laws.write x (v.onShelf i)).through (fun _ hs => hs) ?_
    intro _ _ hx
    subst hx
    refine ⟨{ v with held := x }, fun s hs => ?_, rfl⟩
    rw [Layer.onShelf, Function.update_idem, Function.update_self] at hs
    exact hs
  order ks v := by
    refine (laws.orderKeys ks (v.onShelf i)).through (fun _ hs => hs) ?_
    intro _ _ hx
    obtain ⟨perm, rfl⟩ := hx
    exact ⟨v, fun _ hs => hs, perm, rfl⟩

/-- what is run without the room leaves it alone -/
theorem yields_beside {α : Type} {x : Run σ α} {v : Shelves × Room} {P : α → Shelves → Prop} (h : Yields R x v.1 P) :
    Yields (Beside R) (Run.apart x) v fun a w => ∃ W, P a W ∧ w = (W, v.2) := by
  intro p hp
  obtain ⟨W, hW, a, ha, hq⟩ := Ends.apart h v.2 p hp
  exact ⟨(W, v.2), hW, a, ha, W, hq, rfl⟩

theorem Laws.writer (laws : d.Laws i R) (name : Key) :
    (d.lentWriter name).Laws (fun p u => Beside R p (u.atBench i)) Eq where
  catalog :=
    { inner := fun x r => (laws.names r.rest.1 x r.beneath).apart (r.rest.2, r.held)
      read := fun u => by
        refine (yields_beside (laws.read (u.atBench i).1)).through (fun _ hp => hp) ?_
        rintro _ _ ⟨_, ⟨rfl, rfl⟩, rfl⟩
        exact ⟨u, fun _ hp => hp, by simp only [Layer.atBench, Function.update_self], rfl⟩
      write := fun x u => by
        refine (yields_beside (laws.write x (u.atBench i).1)).through (fun _ hp => hp) ?_
        rintro _ _ ⟨_, rfl, rfl⟩
        refine ⟨{ u with held := x }, fun p hp => ?_, rfl⟩
        simp only [Layer.atBench, Function.update_idem, Function.update_self] at hp
        exact hp
      order := fun ks u => by
        refine (yields_beside (laws.orderKeys ks (u.atBench i).1)).through (fun _ hp => hp) ?_
        rintro _ _ ⟨_, ⟨perm, rfl⟩, rfl⟩
        exact ⟨u, fun _ hp => hp, perm, rfl⟩ }
  writer x t :=
    { inner := fun y r => (laws.data r.1 x t).apart (r.2, y)
      read := fun v _ hp => ⟨v, hp, _, rfl, congrArg Prod.snd hp.2, rfl⟩
      write := fun y v _ hp => ⟨{ v with held := y }, ⟨hp.1, congrArg (fun l : Room => (l.1, y)) hp.2⟩, (), rfl, rfl⟩ }
  order as u := by
    refine (yields_beside (laws.orderCells as (u.atBench i).1)).through (fun _ hp => hp) ?_
    rintro _ _ ⟨_, ⟨perm, rfl⟩, rfl⟩
    exact ⟨u, fun _ hp => hp, perm, rfl⟩

theorem Laws.reader (laws : d.Laws i R) (name : Key) (length : UInt64) :
    Layered (d.lentReader name length).rows (d.lentReader name length).state (fun p v => Beside R p (v.inHand i)) Eq
      never where
  inner x r := (laws.data r.1 (r.1 i).catalog (r.1 i).names).apart (x, r.2)
  read v := fun _ hp => ⟨v, hp, _, rfl, congrArg Prod.fst hp.2, rfl⟩
  write x v := fun _ hp => ⟨{ v with held := x }, ⟨hp.1, congrArg (fun l : Room => (x, l.2)) hp.2⟩, (), rfl, rfl⟩

end Directory

/-! ## Shelves side by side -/

section Racked

variable (catalogs : σ → Nat → CatalogState) (names : σ → Nat → Table Column) (B C : σ → (Nat → Table Column) → Prop)

/-- the shelves of a state that has the catalogs and the names of all directories, and data as `B` says -/
def Racked (s : σ) (V : Shelves) : Prop :=
  catalogs s = Shelf.catalog ∘ V ∧ names s = Shelf.names ∘ V ∧ B s (Shelf.data ∘ V)

variable {catalogs names B C} {s r : σ} {V : Shelves} {i : Nat} {x : CatalogState} {n t : Table Column}

theorem Racked.names_eq (h : Racked catalogs names B s (Function.update V i ⟨x, n, t⟩)) : names s i = n := by
  rw [h.2.1, Function.comp_apply, Function.update_self]

theorem Racked.setNames (h : Racked catalogs names B s (Function.update V i ⟨x, n, t⟩)) {m : Table Column}
    (held : catalogs r = catalogs s) (rows : names r = Function.update (names s) i m) (kept : ∀ D, B s D → B r D) :
    Racked catalogs names B r (Function.update V i ⟨x, m, t⟩) := by
  obtain ⟨catalogs, names, stands⟩ := h
  simp only [Function.comp_update] at catalogs names stands
  refine ⟨?_, ?_, ?_⟩
  · rwa [held, Function.comp_update]
  · rw [rows, names, Function.comp_update, Function.update_idem]
  · rw [Function.comp_update]
    exact kept _ stands

theorem Racked.setCatalog (h : Racked catalogs names B s V) (held : catalogs r = Function.update (catalogs s) i x)
    (rows : names r = names s) (kept : ∀ D, B s D → B r D) :
    Racked catalogs names B r (Function.update V i { V i with catalog := x }) := by
  obtain ⟨catalogs, names, stands⟩ := h
  refine ⟨?_, ?_, ?_⟩
  · rw [held, catalogs, Function.comp_update]
  · rw [rows, names, Function.comp_update]
    exact (Function.update_eq_self i _).symm
  · rw [Function.comp_update]
    change B r (Function.update (Shelf.data ∘ V) i ((Shelf.data ∘ V) i))
    rw [Function.update_eq_self]
    exact kept _ stands

theorem Racked.setData (h : Racked catalogs names B s (Function.update V i ⟨x, n, t⟩)) {u : Table Column}
    (held : catalogs r = catalogs s) (rows : names r = names s) (stands : C r (Function.update (Shelf.data ∘ V) i u)) :
    Racked catalogs names C r (Function.update V i ⟨x, n, u⟩) := by
  obtain ⟨catalogs, names, _⟩ := h
  rw [Function.comp_update] at catalogs names
  refine ⟨?_, ?_, ?_⟩
  · rwa [held, Function.comp_update]
  · rwa [rows, Function.comp_update]
  · rwa [Function.comp_update]

variable (catalogs names B) in
/-- whatever the data are, a catalog does not touch them -/
theorem racked_laws {d : Directory (Run σ)} {width : Nat} {putNames : Table Column → σ → σ} {putCatalog : CatalogState → σ → σ}
    (rows : d.catalog.rows = Table.rows (Run.part (fun s => names s i) putNames) width)
    (state : d.catalog.state = Run.part (fun s => catalogs s i) putCatalog)
    (putRows : ∀ m s, catalogs (putNames m s) = catalogs s ∧ names (putNames m s) = Function.update (names s) i m ∧
      ∀ D, B s D → B (putNames m s) D)
    (putHeld : ∀ y s, catalogs (putCatalog y s) = Function.update (catalogs s) i y ∧ names (putCatalog y s) = names s ∧
      ∀ D, B s D → B (putCatalog y s) D)
    (order : ∀ ks V, Yields (Racked catalogs names B) (d.catalog.order ks) V fun ls W => ls.Perm ks ∧ W = V) :
    d.CatalogLaws i (Racked catalogs names B) where
  names V x t := by
    rw [rows]
    exact Table.rows_serve (fun _ _ hs => hs.names_eq)
      (fun s _ m hs => hs.setNames (putRows m s).1 (putRows m s).2.1 (putRows m s).2.2) width never
  trims V x t := by
    rw [rows]
    exact Table.rows_trim (fun _ _ hs => hs.names_eq)
      (fun s _ m hs => hs.setNames (putRows m s).1 (putRows m s).2.1 (putRows m s).2.2) width never
  read V s hs := by
    rw [state]
    exact ⟨V, hs, _, rfl, congrFun hs.1 i, rfl⟩
  write y V s hs := by
    rw [state]
    exact ⟨_, hs.setCatalog (putHeld y s).1 (putHeld y s).2.1 (putHeld y s).2.2, (), rfl, rfl⟩
  orderKeys := order

end Racked

/-! ## Stocks -/

/-- what a shelf stands for: the length of each file that is there, and the rows of bytes -/
@[ext]
structure Stock where
  lengths : Catalog.Index := ∅
  data : Table Column := .empty

abbrev Stocks := Nat → Stock

namespace Stock

variable (f : Stock)

/-- after a file is removed -/
def without (name : Key) : Stock := ⟨f.lengths.erase name, f.data.delete name⟩

theorem getElem?_without (name k : Key) :
    (f.without name).lengths[k]? = if name = k then none else f.lengths[k]? := by
  simp [without, Std.ExtTreeMap.getElem?_erase]

theorem get_without (name k : Key) (c : Column) :
    (f.without name).data.get k c = if name = k then none else f.data.get k c := Table.get_delete ..

/-- nothing need be removed of a file that is not there and has no bytes -/
theorem without_absent {name : Key} (absent : name ∉ f.lengths) (empty : ∀ c, f.data.get name c = none) :
    f.without name = f := by
  have lengths : (f.without name).lengths = f.lengths := Std.ExtTreeMap.ext_getElem? fun k => by
    rw [getElem?_without]
    split_ifs with same
    · rw [← same, Std.ExtTreeMap.getElem?_eq_none absent]
    · rfl
  have data : (f.without name).data = f.data := Table.ext_get fun k c => by
    rw [get_without]
    split_ifs with same
    · rw [← same, empty]
    · rfl
  rw [Stock.ext_iff]
  exact ⟨lengths, data⟩

/-- what is read of a file at a stretch -/
def read (width : Nat) (name : Key) (offset : UInt64) (len : Nat) : Except Error Bytes :=
  match f.lengths.find name with
  | .error e => .error e
  | .ok _ => Layout.stretch width f.data name offset.toNat len

/-- what is read of a file as a whole -/
def readFile (width : Nat) (name : Key) : Except Error Bytes := do
  let n ← f.lengths.find name
  f.read width name 0 n.toNat

/-- after a session on a file, which is made if it is not there -/
def after (width : Nat) (name : Key) (steps : List Writer.Step) : Stock :=
  let stop := Writer.written width name steps (f.lengths[name]?.getD 0) f.data
  ⟨f.lengths.insert name stop.1, stop.2⟩

end Stock

/-- a shelf stands for a stock; the files in it are in use -/
structure Shelf.Keeps (v : Shelf) (U : Key → Prop) (f : Stock) : Prop where
  lengths : Catalog.Coherent (fun _ => True) (f.lengths[·]?) [] v.catalog v.names
  orderly : Catalog.Orderly U v.catalog v.names
  data : v.data = f.data

/-- a state whose shelves stand for stocks -/
def Stocked (R : σ → Shelves → Prop) (U : Key → Prop) (s : σ) (F : Stocks) : Prop :=
  ∃ V, R s V ∧ ∀ i, (V i).Keeps U (F i)

section Stocked

variable {R : σ → Shelves → Prop} {U : Key → Prop} {F : Stocks} {α : Type} {x : Run σ α} {i : Nat}

/-- what is known of the shelves is known of the stocks -/
theorem ends_stocked {Q : Except Error α → Stocks → Prop}
    (h : ∀ V, (∀ i, (V i).Keeps U (F i)) → Ends R x V fun o W => ∃ G, (∀ i, (W i).Keeps U (G i)) ∧ Q o G) :
    Ends (Stocked R U) x F Q := by
  intro s hs
  obtain ⟨V, shown, keeps⟩ := hs
  obtain ⟨W, shown', G, keeps', hq⟩ := h V keeps s shown
  exact ⟨G, ⟨W, shown', keeps'⟩, hq⟩

theorem fails_stocked {e : Error} (h : ∀ V, (∀ i, (V i).Keeps U (F i)) → Fails R x V e) :
    Fails (Stocked R U) x F e := by
  intro s hs
  obtain ⟨V, shown, keeps⟩ := hs
  exact h V keeps s shown

theorem Shelf.Keeps.indexes {V : Shelves} (keeps : (V i).Keeps U (F i)) :
    Layer.Indexes ⟨(V i).catalog, (V i).names, V⟩ U (F i).lengths V :=
  ⟨⟨keeps.lengths, rfl⟩, keeps.orderly⟩

/-- shelves of which one has changed -/
theorem keeps_update {V : Shelves} (keeps : ∀ k, (V k).Keeps U (F k)) {v : Shelf} {f : Stock} (here : v.Keeps U f) (k : Nat) :
    (Function.update V i v k).Keeps U (Function.update F i f k) := by
  by_cases same : k = i
  · subst same
    rw [Function.update_self, Function.update_self]
    exact here
  · rw [Function.update_of_ne same, Function.update_of_ne same]
    exact keeps k

end Stocked

namespace Directory

variable {d : Directory (Run σ)} {i : Nat} {R : σ → Shelves → Prop} {U : Key → Prop} {F : Stocks} {name : Key} {α : Type}

/-! ## Operations on catalogs -/

namespace CatalogLaws

/-- what is known of a catalog is known of the stocks: its own lengths may change, and nothing else -/
theorem ends {x : Run σ α} {P : Except Error α → Catalog.Index → Prop}
    (h : ∀ v : Layer CatalogState Shelves, v.Indexes U (F i).lengths v.rest →
      Ends (fun s v => R s (v.onShelf i)) x v fun o w => ∃ m, w.Indexes U m v.rest ∧ P o m) :
    Ends (Stocked R U) x F fun o G => ∃ m, P o m ∧ G = Function.update F i { F i with lengths := m } := by
  refine ends_stocked fun V keeps => ?_
  have same : Layer.onShelf i ⟨(V i).catalog, (V i).names, V⟩ = V := Function.update_eq_self i V
  intro s hs
  rw [← same] at hs
  obtain ⟨w, hw, m, indexes, hp⟩ := h _ (keeps i).indexes s hs
  have rest : w.rest = V := indexes.records.rest
  have here : Shelf.Keeps ⟨w.held, w.beneath, (w.rest i).data⟩ U { F i with lengths := m } :=
    ⟨indexes.records.coherent, indexes.orderly, by rw [rest, (keeps i).data]⟩
  refine ⟨w.onShelf i, hw, _, fun k => ?_, m, hp, rfl⟩
  rw [Layer.onShelf, rest]
  exact keeps_update keeps (rest ▸ here) k

theorem asks {x : Run σ α} {Q : Except Error α → Prop}
    (h : ∀ v : Layer CatalogState Shelves, v.Indexes U (F i).lengths v.rest →
      Ends (fun s v => R s (v.onShelf i)) x v fun o w => w.Indexes U (F i).lengths v.rest ∧ Q o) :
    Ends (Stocked R U) x F fun o G => Q o ∧ G = F := by
  have kept := CatalogLaws.ends (R := R) (x := x) (P := fun o m => Q o ∧ m = (F i).lengths) fun v hv =>
    Ends.mono (h v hv) fun _ _ hw => ⟨_, hw.1, hw.2, rfl⟩
  refine Ends.mono kept fun o G hG => ?_
  obtain ⟨_, ⟨hq, rfl⟩, rfl⟩ := hG
  exact ⟨hq, Function.update_eq_self i F⟩

theorem sets {x : Run σ Unit} {m : Catalog.Index}
    (h : ∀ v : Layer CatalogState Shelves, v.Indexes U (F i).lengths v.rest →
      Yields (fun s v => R s (v.onShelf i)) x v fun _ w => w.Indexes U m v.rest) :
    Yields (Stocked R U) x F fun _ G => G = Function.update F i { F i with lengths := m } := by
  have kept := CatalogLaws.ends (R := R) (x := x) (P := fun o m' => o = .ok () ∧ m' = m) fun v hv =>
    Ends.mono (h v hv) fun _ _ hw => ⟨_, hw.choose_spec.2, hw.choose_spec.1, rfl⟩
  refine Ends.mono kept fun o G hG => ?_
  obtain ⟨_, ⟨rfl, rfl⟩, rfl⟩ := hG
  exact ⟨(), rfl, rfl⟩

theorem has (laws : d.CatalogLaws i R) :
    Yields (Stocked R U) (d.has name) F fun yes G => yes = decide (name ∈ (F i).lengths) ∧ G = F := by
  have answers : Ends (Stocked R U) (d.has name) F fun o G => o = .ok (decide (name ∈ (F i).lengths)) ∧ G = F := by
    refine asks (i := i) fun v h => Ends.mono (laws.catalog.has h name) fun o w hw => ?_
    obtain ⟨_, rfl, rfl, rfl⟩ := hw
    exact ⟨h, rfl⟩
  exact Ends.mono answers fun _ _ h => ⟨_, h.1, rfl, h.2⟩

theorem length (laws : d.CatalogLaws i R) :
    Ends (Stocked R U) (d.length name) F fun o G => o = (F i).lengths.find name ∧ G = F :=
  asks fun _ h => laws.catalog.find h name

/-- the length of a file that is there -/
theorem lengthOf (laws : d.CatalogLaws i R) {n : UInt64} (found : (F i).lengths[name]? = some n) :
    Yields (Stocked R U) (d.length name) F fun a G => a = n ∧ G = F := by
  refine Ends.mono laws.length fun o G hG => ?_
  rw [Catalog.Index.find, found] at hG
  exact ⟨n, hG.1, rfl, hG.2⟩

/-- nothing follows where a file is missing -/
theorem missing (laws : d.CatalogLaws i R) {f : UInt64 → Run σ α} (absent : (F i).lengths[name]? = none) :
    Ends (Stocked R U) (d.length name >>= f) F fun o G => o = .error (.notFound name) ∧ G = F := by
  refine Ends.bind (Ends.mono laws.length fun o G hG => ?_)
  rw [Catalog.Index.find, absent] at hG
  exact .inr ⟨_, hG.1, rfl, hG.2⟩

/-- **The list of a directory** is the files that have a length. -/
theorem list (laws : d.CatalogLaws i R) (apart : Catalog.Apart U) :
    Yields (Stocked R U) d.list F fun names G => names = (F i).lengths.keys ∧ G = F := by
  have answers : Ends (Stocked R U) d.list F fun o G => o = .ok (F i).lengths.keys ∧ G = F := by
    refine asks (i := i) fun v h => Ends.mono (laws.catalog.keys apart h) fun o w hw => ?_
    obtain ⟨_, rfl, rfl, rfl⟩ := hw
    exact ⟨h, rfl⟩
  exact Ends.mono answers fun _ _ h => ⟨_, h.1, rfl, h.2⟩

/-- nothing changes where a directory is listed, even if files share columns of the listing -/
theorem list_changes_nothing (laws : d.CatalogLaws i R) : Ends (Stocked R U) d.list F fun _ G => G = F := by
  refine Ends.mono (asks (i := i) (Q := fun _ => True) fun v h => ?_) fun _ _ hG => hG.2
  refine Ends.mono (laws.catalog.keys_keeps v) fun _ w hw => ?_
  obtain rfl := hw
  exact ⟨h, trivial⟩

/-- a length is written at once -/
theorem recorded (laws : d.CatalogLaws i R) (used : U name) (n : UInt64) :
    Yields (Stocked R U) (d.catalog.setLength name n true) F fun _ G =>
      G = Function.update F i { F i with lengths := (F i).lengths.insert name n } :=
  sets fun _ h => laws.catalog.record h used n true

/-- lengths are written out, after which none is in memory only -/
theorem synced (laws : d.CatalogLaws i R) {V : Shelves} (keeps : ∀ k, (V k).Keeps U (F k)) :
    Yields R (do d.catalog.flush false; d.catalog.rows.sync) V fun _ W =>
      (∀ k, (W k).Keeps U (F k)) ∧ ∀ key, key ∉ (W i).catalog.dirty := by
  have lengths : Yields (fun s (v : Layer CatalogState Shelves) => R s (v.onShelf i))
      (do d.catalog.flush false; d.catalog.rows.sync) ⟨(V i).catalog, (V i).names, V⟩ fun _ w =>
        w.Indexes U (F i).lengths V ∧ ∀ key, key ∉ w.held.dirty := by
    refine (laws.catalog.flushed (keeps i).indexes).bind ?_
    intro _ w written
    refine ((Layered.beneath ((laws.catalog.inner _ _).sync _)).yields id).mono ?_
    intro _ _ hw
    obtain ⟨_, rfl, rfl⟩ := hw
    exact written
  refine lengths.through (fun s hs => ?_) ?_
  · rw [Layer.onShelf, Function.update_eq_self]
    exact hs
  · rintro _ ⟨x, n, W⟩ ⟨⟨⟨coherent, same⟩, orderly⟩, clean⟩
    obtain rfl : V = W := same.symm
    refine ⟨_, fun _ hs => hs, fun k => ?_, ?_⟩
    · have kept := keeps_update keeps (i := i) (v := ⟨x, n, (V i).data⟩) ⟨coherent, orderly, (keeps i).data⟩ k
      rwa [Function.update_eq_self] at kept
    · rw [Layer.onShelf, Function.update_self]
      exact clean

theorem forgotten (laws : d.CatalogLaws i R) (used : U name) :
    Yields (Stocked R U) (d.catalog.delete name) F fun _ G =>
      G = Function.update F i { F i with lengths := (F i).lengths.erase name } := by
  refine sets fun _ h => laws.catalog.delete (fun x r => ?_) h used
  exact laws.trims r x (r i).data

end CatalogLaws

/-! ## Files that are removed -/

variable (d i R) in
/-- a row of the data is deleted, and nothing else -/
def Deletes : Prop :=
  ∀ k V, Yields R (d.data.delete k) V fun _ W => W = Function.update V i { V i with data := (V i).data.delete k }

theorem Deletes.stocked (deletes : d.Deletes i R) :
    Yields (Stocked R U) (d.data.delete name) F fun _ G =>
      G = Function.update F i { F i with data := (F i).data.delete name } := by
  refine ends_stocked fun V keeps => Ends.mono (deletes name V) fun o W hW => ?_
  obtain ⟨_, rfl, rfl⟩ := hW
  refine ⟨_, keeps_update keeps ?_, (), rfl, rfl⟩
  exact ⟨(keeps i).lengths, (keeps i).orderly, congrArg (Table.delete · name) (keeps i).data⟩

namespace CatalogLaws

/-- **A file that is removed** leaves an empty row and no length. -/
theorem removed (laws : d.CatalogLaws i R) (deletes : d.Deletes i R) (used : U name) :
    Yields (Stocked R U) (d.remove name) F fun _ G => G = Function.update F i ((F i).without name) := by
  refine deletes.stocked.bind ?_
  intro _ _ hG
  subst hG
  refine (laws.forgotten used).mono ?_
  intro _ _ hG
  rw [hG, Function.update_idem, Function.update_self]
  rfl

/-- a file that is there is removed, of another nothing need be removed -/
theorem removedIfPresent (laws : d.CatalogLaws i R) (deletes : d.Deletes i R) (used : U name)
    (absent : name ∉ (F i).lengths → ∀ c, (F i).data.get name c = none) :
    Yields (Stocked R U) (d.removeIfPresent name) F fun _ G => G = Function.update F i ((F i).without name) := by
  refine laws.has.next ?_
  by_cases there : name ∈ (F i).lengths
  · rw [decide_eq_true there]
    exact laws.removed deletes used
  · rw [decide_eq_false there]
    refine yields_pure () ?_
    rw [(F i).without_absent there (absent there), Function.update_eq_self]

/-- a file that is not there cannot be deleted -/
theorem deleted (laws : d.CatalogLaws i R) (deletes : d.Deletes i R) (used : U name) :
    Ends (Stocked R U) (d.delete name) F fun o G =>
      if name ∈ (F i).lengths then o = .ok () ∧ G = Function.update F i ((F i).without name)
      else o = .error (.notFound name) ∧ G = F := by
  refine laws.has.next ?_
  by_cases there : name ∈ (F i).lengths
  · rw [decide_eq_true there]
    simp only [if_pos there]
    exact Ends.mono (laws.removed deletes used) fun _ _ h => ⟨h.choose_spec.1, h.choose_spec.2⟩
  · rw [decide_eq_false there]
    simp only [if_neg there]
    exact Ends.bind (ends_throw _ (.inr ⟨_, rfl, rfl, rfl⟩))

end CatalogLaws

/-! ## Files that are written -/

/-- a session that finds its writer open, beside a room -/
def lentSession (d : Directory (Run σ)) (name : Key) (steps : List Writer.Step) : Run (σ × Room) Unit := do
  steps.forM (d.lentWriter name).act
  (d.lentWriter name).close

theorem withWriter_eq (d : Directory (Run σ)) (name : Key) (steps : List Writer.Step) :
    (d.withWriter name fun w => steps.forM w.act) = (do
      let writer ← d.startWriter name
      (lend.run (d.lentSession name steps)).run' ({}, writer)) := by
  have acts := funext ((d.lentWriter name).act_carried lend (fun _ _ _ => steady_apart _) fun _ _ _ => steady_apart _)
  have session : lend.run (d.lentSession name steps) = (do
      let a ← steps.forM (d.localWriter name).act
      (d.localWriter name).close
      return a) := by
    simp only [lentWriter_carried] at acts
    simp only [lentSession, lend.run_bind, lend.run_forM, acts, Writer.close, lentWriter_flush, bind_pure_unit]
  rw [withWriter, session]

variable (d U) in
/-- an open writer of a directory, beside a room: from the lengths `m` it has come to the length `n` and the rows `p`; the
other shelves are those of `V` -/
structure Drafts (V : Shelves) (m : Catalog.Index) (name : Key) (n : UInt64) (p : Table Column) (u : Bench) :
    Prop where
  opened : ∃ digest, (d.lentWriter name).Opened (fun _ => True) (m[·]?) u.rest.rest n p digest u
  others : u.rest.rest.1 = V
  orderly : Catalog.Orderly U u.held u.beneath

namespace Laws

/-- a call about a row of the data changes nothing but the rows of the data -/
theorem onData {x : Run σ α} {V : Shelves} {P : α → Table Column → Prop}
    (h : Yields (fun s t => R s (Function.update V i { V i with data := t })) x (V i).data P) :
    Yields R x V fun a W => ∃ t, P a t ∧ W = Function.update V i { V i with data := t } := by
  refine h.through (fun s hs => ?_) fun _ t hp => ⟨_, fun _ hs => hs, t, hp, rfl⟩
  rw [Function.update_eq_self]
  exact hs

theorem deletes (laws : d.Laws i R) : d.Deletes i R := by
  intro k V
  refine (onData ((laws.data V _ _).delete k _ |>.yields id)).mono ?_
  intro _ _ hW
  obtain ⟨_, rfl, rfl⟩ := hW
  rfl

/-- **A writer is opened** on a file, which is made if it is not there. -/
theorem opened (laws : d.Laws i R) (hw : 0 < d.data.width) (used : U name) {V : Shelves}
    (keeps : ∀ k, (V k).Keeps U (F k)) :
    Yields R (d.startWriter name) V fun x W => ∃ u : Bench, u.atBench i = (W, ({}, x)) ∧ u.rest.beneath = (F i).data ∧
      d.Drafts U V (F i).lengths name ((F i).lengths[name]?.getD 0) (F i).data u := by
  have found := (keeps i).indexes
  refine (Writer.start_records laws.catalog d.data.toRows hw trivial found.records).through (fun s hs => ?_) ?_
  · rw [Layer.onShelf, Function.update_eq_self]
    exact hs
  · rintro _ ⟨held, beneath, W⟩ ⟨rfl, ⟨coherent, same⟩, order, _⟩
    obtain rfl : V = W := same.symm
    refine ⟨_, fun _ hs => hs, ⟨held, beneath, ⟨_, (V i).data, (V, {})⟩⟩, rfl, (keeps i).data, ?_, rfl,
      order U used found.orderly⟩
    exact ⟨_, rfl, rfl, coherent, (keeps i).data ▸ .new _, rfl⟩

/-- a writer that is closed leaves the stock it has come to -/
theorem closed (laws : d.Laws i R) (used : U name) {V : Shelves} (keeps : ∀ k, (V k).Keeps U (F k)) {n : UInt64}
    {p : Table Column} {u : Bench} (drafts : d.Drafts U V (F i).lengths name n p u) :
    Yields (fun p u => Beside R p (u.atBench i)) (d.lentWriter name).close u fun _ u' =>
      ∀ k, ((u'.atBench i).1 k).Keeps U (Function.update F i ⟨(F i).lengths.insert name n, p⟩ k) := by
  obtain ⟨⟨digest, opened⟩, rfl, orderly⟩ := drafts
  refine ((laws.writer name).flush opened).mono ?_
  intro _ u' hu k
  obtain ⟨opened, flushed, order, _⟩ := hu
  have lengths : Catalog.Coherent (fun _ => True) (((F i).lengths.insert name n)[·]?) [] u'.held u'.beneath := by
    rw [Catalog.Index.getElem?_insert_eq_update]
    exact opened.lengths
  have shelves : u'.rest.rest.1 = u.rest.rest.1 := congrArg Prod.fst opened.rest
  rw [Layer.atBench, shelves]
  exact keeps_update keeps ⟨lengths, order U used orderly, opened.beneath flushed⟩ k

/-- **A session** leaves what its steps come to, however they are cut and flushed. -/
theorem session (laws : d.Laws i R) (hw : 0 < d.data.width) (used : U name) (steps : List Writer.Step)
    (fits : Writer.Takes d.data.width ((F i).lengths[name]?.getD 0).toNat (Writer.bytes steps)) :
    Yields (Stocked R U) (d.withWriter name fun w => steps.forM w.act) F fun _ G =>
      G = Function.update F i ((F i).after d.data.width name steps) := by
  refine ends_stocked fun V keeps => ?_
  rw [withWriter_eq]
  refine (laws.opened hw used keeps).ends ?_
  intro x W hW
  obtain ⟨u, shown, _, ⟨digest, opened⟩, others, orderly⟩ := hW
  have written : Yields (fun p u => Beside R p (u.atBench i)) (d.lentSession name steps) u fun _ u' =>
      ∀ k, ((u'.atBench i).1 k).Keeps U (Function.update F i ((F i).after d.data.width name steps) k) := by
    refine ((laws.writer name).steps steps fits opened).bind ?_
    intro _ u₁ hu
    obtain ⟨opened₁, order⟩ := hu
    have others₁ : u₁.rest.rest.1 = V := (congrArg Prod.fst opened₁.rest).trans others
    exact laws.closed used keeps ⟨⟨_, opened₁.rest ▸ opened₁⟩, others₁, order U used orderly⟩
  refine written.lend (fun s hs => ?_) fun o u' hu => ?_
  · rw [shown]
    exact ⟨hs, rfl⟩
  · obtain ⟨_, rfl, keeps'⟩ := hu
    exact ⟨_, fun p hp => hp.1, _, keeps', (), rfl, rfl⟩

/-- a session fails of which not all bytes can be taken -/
theorem session_refused (laws : d.Laws i R) (hw : 0 < d.data.width) (used : U name) (steps : List Writer.Step)
    (unfit : ¬ Writer.Takes d.data.width ((F i).lengths[name]?.getD 0).toNat (Writer.bytes steps))
    (empty : longestBuffer < d.data.width → ∀ c, (F i).data.get name c = none) :
    Fails (Stocked R U) (d.withWriter name fun w => steps.forM w.act) F .tooLarge := by
  refine fails_stocked fun V keeps => ?_
  rw [withWriter_eq]
  refine (laws.opened hw used keeps).fails ?_
  intro x W hW
  obtain ⟨u, shown, _, ⟨digest, opened⟩, _⟩ := hW
  refine ((laws.writer name).steps_refused hw steps unfit empty opened).bind.lend fun s hs => ?_
  rw [shown]
  exact ⟨hs, rfl⟩

/-- what is buffered is written out, after which no length is in memory only -/
theorem synced (laws : d.Laws i R) {V : Shelves} (keeps : ∀ k, (V k).Keeps U (F k)) :
    Yields R d.sync V fun _ W => (∀ k, (W k).Keeps U (F k)) ∧ ∀ key, key ∉ (W i).catalog.dirty := by
  have data : Yields R d.data.sync V fun _ W => W = V := by
    refine (onData ((laws.data V _ _).sync _ |>.yields id)).mono ?_
    intro _ _ hW
    obtain ⟨_, rfl, rfl⟩ := hW
    exact Function.update_eq_self i V
  exact data.step (laws.toCatalogLaws.synced keeps)

/-- a sync changes no file -/
theorem sync (laws : d.Laws i R) : Yields (Stocked R U) d.sync F fun _ G => G = F := by
  refine ends_stocked fun V keeps => Ends.mono (laws.synced keeps) fun o W hW => ?_
  obtain ⟨_, rfl, keeps, _⟩ := hW
  exact ⟨F, keeps, (), rfl, rfl⟩

/-! ## Files that are read -/

/-- a stretch is read beside a writer, which is left alone -/
theorem readBytes (laws : d.Laws i R) (hw : 0 < d.data.width) {V : Shelves} {x : ReaderState} {y : WriterState}
    (fresh : Reader.Fresh name ⟨x, (V i).data, (V, y)⟩) (length offset : UInt64) (len : Nat) :
    Ends (Beside R) ((d.lentReader name length).readBytes offset len) (V, (x, y)) fun o w =>
      o = Layout.stretch d.data.width (V i).data name offset.toNat len ∧
        ∃ x', Reader.Fresh name ⟨x', (V i).data, (V, y)⟩ ∧ w = (V, (x', y)) := by
  have shown (x : ReaderState) : Layer.inHand i ⟨x, (V i).data, (V, y)⟩ = (V, (x, y)) := by
    rw [Layer.inHand, Function.update_eq_self]
  have reader := Reader.laws_of_layered (laws.reader name length)
  refine (Reader.readBytes_ends reader hw fresh offset len).through (fun p hp => ?_) ?_
  · rw [shown]
    exact hp
  · rintro _ ⟨x', _, _⟩ ⟨rfl, fresh, rfl, rfl⟩
    refine ⟨_, fun p hp => ?_, rfl, x', fresh, rfl⟩
    rw [shown] at hp
    exact hp

theorem withReader_eq (d : Directory (Run σ)) (name : Key) (offset : UInt64) (len : Nat) :
    (d.withReader name fun r => r.readBytes offset len) = (do
      let length ← d.length name
      (lend.run ((d.lentReader name length).readBytes offset len)).run' ({}, {})) := by
  simp only [withReader, Reader.readBytes_carried, lentReader_carried]

theorem readFile_eq (d : Directory (Run σ)) (name : Key) :
    d.readFile name = (do
      let length ← d.length name
      (lend.run ((d.lentReader name length).readBytes 0 length.toNat)).run' ({}, {})) := by
  simp only [readFile, withReader, Reader.readBytes_carried, lentReader_carried]
  rfl

/-- a stretch of a row is read by a new reader, as far as it can be -/
theorem rowRead_shown (laws : d.Laws i R) (hw : 0 < d.data.width) (V : Shelves) (name : Key) (length offset : UInt64)
    (len : Nat) :
    Ends R ((lend.run ((d.lentReader name length).readBytes offset len)).run' ({}, {})) V fun o W =>
      o = Layout.stretch d.data.width (V i).data name offset.toNat len ∧ W = V := by
  have fresh : Reader.Fresh name ⟨{}, (V i).data, (V, ({} : WriterState))⟩ := nofun
  refine (laws.readBytes hw fresh length offset len).lend (fun s hs => ⟨hs, rfl⟩) fun o _ hw => ?_
  obtain ⟨rfl, _, _, rfl⟩ := hw
  exact ⟨V, fun p hp => hp.1, rfl, rfl⟩

theorem rowRead (laws : d.Laws i R) (hw : 0 < d.data.width) (length offset : UInt64) (len : Nat) :
    Ends (Stocked R U) ((lend.run ((d.lentReader name length).readBytes offset len)).run' ({}, {})) F fun o G =>
      o = Layout.stretch d.data.width (F i).data name offset.toNat len ∧ G = F := by
  refine ends_stocked fun V keeps => Ends.mono (laws.rowRead_shown hw V name length offset len) fun o W hW => ?_
  obtain ⟨rfl, rfl⟩ := hW
  exact ⟨F, keeps, by rw [(keeps i).data], rfl⟩

/-- **A stretch of a file is read** as its row has it, if the file is there and the stretch can be read. -/
theorem stretch (laws : d.Laws i R) (hw : 0 < d.data.width) (offset : UInt64) (len : Nat) :
    Ends (Stocked R U) (d.withReader name fun r => r.readBytes offset len) F fun o G =>
      o = (F i).read d.data.width name offset len ∧ G = F := by
  rw [withReader_eq]
  refine Ends.bind (Ends.mono laws.length fun o G hG => ?_)
  obtain ⟨rfl, rfl⟩ := hG
  rw [Stock.read]
  cases (G i).lengths.find name with
  | error e => exact .inr ⟨e, rfl, rfl, rfl⟩
  | ok n => exact .inl ⟨n, rfl, laws.rowRead hw n offset len⟩

/-- a file is read as a whole: as many bytes of its row as its length says -/
theorem whole (laws : d.Laws i R) (hw : 0 < d.data.width) :
    Ends (Stocked R U) (d.readFile name) F fun o G => o = (F i).readFile d.data.width name ∧ G = F := by
  rw [readFile_eq]
  refine Ends.bind (Ends.mono laws.length fun o G hG => ?_)
  obtain ⟨rfl, rfl⟩ := hG
  rw [Stock.readFile]
  cases found : (G i).lengths.find name with
  | error e => exact .inr ⟨e, rfl, rfl, rfl⟩
  | ok n =>
    refine .inl ⟨n, rfl, ?_⟩
    simp only [Stock.read, found]
    exact laws.rowRead hw n 0 n.toNat

/-- a directory with a stock answers from it -/
theorem asked (laws : d.Laws i R) (hw : 0 < d.data.width) {s : σ} (hs : Stocked R U s F) (name : Key) :
    (d.length name s).1 = (F i).lengths.find name ∧ (d.readFile name s).1 = (F i).readFile d.data.width name ∧
      ∀ offset len, (d.withReader name (fun r => r.readBytes offset len) s).1 = (F i).read d.data.width name offset len := by
  have length : Ends (Stocked R U) (d.length name) F _ := laws.length
  have whole : Ends (Stocked R U) (d.readFile name) F _ := laws.whole hw
  obtain ⟨_, _, length, _⟩ := length s hs
  obtain ⟨_, _, whole, _⟩ := whole s hs
  refine ⟨length, whole, fun offset len => ?_⟩
  have stretch : Ends (Stocked R U) (d.withReader name fun r => r.readBytes offset len) F _ := laws.stretch hw offset len
  obtain ⟨_, _, stretch, _⟩ := stretch s hs
  exact stretch

end Laws

end Directory

end RowFiles
