/-
Directories whose data lie behind a write-back cache.

A vault holds two tables, one of data and one of names, a cache over the first and a catalog over the second. A run on it
takes sessions, reads, deletes and copies files, syncs, evicts, flushes the cache and moves the clock.

- `Directory.Laws.act_reaches`: a step on a directory, if nothing is too large for it and it does not copy links, leaves
  stocks of which all is true that always is.
- `directory_laws`: the cache and the table beneath stand for plain data, so a vault is such a directory.
- `synced`: a sync leaves the plain data in the table beneath, and the lengths in the rows of the names.
- `tables_after_sync`: so after any run that ends with a sync, a new directory over the two tables alone shows the same
  files as the old one.
-/
import RowFiles.Proofs.Files.Reopening
import RowFiles.Proofs.Files.SiteRuns
import RowFiles.Proofs.Store.Caching

namespace RowFiles

open Run

variable {σ : Type}

/-! ## Steps on one directory -/

inductive Directory.Step where
  | has (name : Key)
  | length (name : Key)
  | list
  | read (name : Key) (offset : UInt64) (len : Nat)
  | write (name : Key) (steps : List Writer.Step)
  | delete (name : Key)
  | copy (src dst : Key)
  | sync

/-- the files that a step may make or remove -/
def Directory.Step.touches : Directory.Step → List Key
  | .write name _ | .delete name => [name]
  | .copy _ dst => [dst]
  | .has _ | .length _ | .list | .read .. | .sync => []

/-- a session or a copy does not run out of buffers or positions -/
def Directory.Step.Fits (width : Nat) (f : Stock) : Directory.Step → Prop
  | .write name steps => Writer.Takes width (f.lengths[name]?.getD 0).toNat (Writer.bytes steps)
  | .copy src dst => ∀ n, f.lengths[src]? = some n → src = dst ∨ CopyFits width width n
  | .has _ | .length _ | .list | .read .. | .delete _ | .sync => True

namespace Directory

def act (d : Directory (Run σ)) : Step → Run σ Site.Answer
  | .has name => .flag <$> d.has name
  | .length name => .length <$> d.length name
  | .list => .names <$> d.list
  | .read name offset len => .bytes <$> d.withReader name fun r => r.readBytes offset len
  | .write name steps => (fun _ => .done) <$> d.withWriter name fun w => steps.forM w.act
  | .delete name => (fun _ => .done) <$> d.delete name
  | .copy src dst => (fun _ => .done) <$> Directory.copy d src d dst
  | .sync => (fun _ => .done) <$> d.sync

variable {d : Directory (Run σ)} {i : Nat} {R : σ → Shelves → Prop} {U : Key → Prop} {F : Stocks} {s : σ}

/-- a file copied onto itself only has to exist -/
theorem copy_onto_itself (name : Key) : Directory.copy d name d name = d.length name >>= fun _ => pure () :=
  if_pos ⟨rfl, rfl⟩

/-- where nothing is linked, a file is copied byte by byte -/
theorem copy_unlinked (unlinked : d.data.linker = none) {src dst : Key} (other : src ≠ dst) :
    Directory.copy d src d dst = Directory.byteCopy d src d dst := by
  obtain ⟨fault, refused⟩ : ∃ fault, Directory.linkCopy d src d dst = throw (.fastCopy fault) :=
    linkCopy_unfit (fun fit => by simp [unlinked] at fit) src dst
  rw [Directory.copy, if_neg fun e => other e.2, refused, tryCatch_throw]

namespace Laws

/-- a copy whose chunks are not too long leaves the other stocks alone, and its own sound -/
theorem copy_sound (laws : d.Laws i R) (unlinked : d.data.linker = none) (hw : 0 < d.data.width)
    (sound : (F i).Sound d.data.width) {src dst : Key} (used : U dst)
    (fits : Step.Fits d.data.width (F i) (.copy src dst)) :
    Ends (Stocked R U) (Directory.copy d src d dst) F fun _ G =>
      ∃ f, f.Sound d.data.width ∧ G = Function.update F i f := by
  have same : ∃ f, f.Sound d.data.width ∧ F = Function.update F i f := ⟨F i, sound, (Function.update_eq_self i F).symm⟩
  by_cases onto : src = dst
  · subst onto
    rw [copy_onto_itself]
    refine Ends.then_pure (Ends.mono laws.length fun o G hG => ?_)
    obtain ⟨_, rfl⟩ := hG
    exact same
  rw [copy_unlinked unlinked onto]
  cases found : (F i).lengths[src]? with
  | none =>
    rw [byteCopy_eq]
    refine Ends.mono (laws.missing found) fun o G hG => ?_
    obtain ⟨_, rfl⟩ := hG
    exact same
  | some n =>
    have absent (gone : dst ∉ (F i).lengths) : ∀ c, (F i).data.get dst c = none :=
      sound.absent (Std.ExtTreeMap.getElem?_eq_none gone)
    have short := (fits n found).resolve_left onto
    have copied := laws.byteCopy laws hw hw used (fun e => onto e.2) absent found short
    refine Ends.mono copied fun o G hG => ?_
    obtain ⟨_, _, rfl⟩ := hG
    refine ⟨_, sound.replaced hw dst (short.2.imp (fun none => ?_) And.right), rfl⟩
    rw [none, ← List.length_eq_zero_iff, Layout.length_read hw]
    rfl

/-- **A step** that asks for nothing too large leaves the other stocks alone, and its own sound. -/
theorem act_sound (laws : d.Laws i R) {step : Step} (unlinked : ∀ src dst, step = .copy src dst → d.data.linker = none)
    (hw : 0 < d.data.width) (sound : (F i).Sound d.data.width) (used : ∀ name ∈ step.touches, U name)
    (fits : step.Fits d.data.width (F i)) :
    Ends (Stocked R U) (d.act step) F fun _ G => ∃ f, f.Sound d.data.width ∧ G = Function.update F i f := by
  have same : ∃ f, f.Sound d.data.width ∧ F = Function.update F i f := ⟨F i, sound, (Function.update_eq_self i F).symm⟩
  cases step with
  | has name =>
    refine Ends.map (Ends.mono laws.has fun o G hG => ?_)
    obtain ⟨_, _, _, rfl⟩ := hG
    exact same
  | length name =>
    refine Ends.map (Ends.mono laws.length fun o G hG => ?_)
    obtain ⟨_, rfl⟩ := hG
    exact same
  | list =>
    refine Ends.map (Ends.mono laws.list_changes_nothing fun o G hG => ?_)
    subst hG
    exact same
  | read name offset len =>
    refine Ends.map (Ends.mono (laws.stretch hw offset len) fun o G hG => ?_)
    obtain ⟨_, rfl⟩ := hG
    exact same
  | write name steps =>
    refine Ends.map (Ends.mono (laws.session hw (used name List.mem_cons_self) steps fits) fun o G hG => ?_)
    obtain ⟨_, _, rfl⟩ := hG
    exact ⟨_, sound.after hw name (fits.imp id And.left), rfl⟩
  | delete name =>
    refine Ends.map (Ends.mono (laws.deleted laws.deletes (used name List.mem_cons_self)) fun o G hG => ?_)
    split_ifs at hG
    · obtain ⟨_, rfl⟩ := hG
      exact ⟨_, sound.without name, rfl⟩
    · obtain ⟨_, rfl⟩ := hG
      exact same
  | copy src dst =>
    exact Ends.map_answer (laws.copy_sound (unlinked src dst rfl) hw sound (used dst List.mem_cons_self) fits)
  | sync =>
    refine Ends.map (Ends.mono laws.sync fun o G hG => ?_)
    obtain ⟨_, _, rfl⟩ := hG
    exact same

/-- a step that runs out of buffers or positions fails -/
theorem act_refused (laws : d.Laws i R) {step : Step} (unlinked : ∀ src dst, step = .copy src dst → d.data.linker = none)
    (hw : 0 < d.data.width) (sound : (F i).Sound d.data.width) (used : ∀ name ∈ step.touches, U name)
    (unfit : ¬ step.Fits d.data.width (F i)) : Fails (Stocked R U) (d.act step) F .tooLarge := by
  cases step with
  | has | length | list | read | delete | sync => exact absurd trivial unfit
  | write name steps =>
    have empty (wide : longestBuffer < d.data.width) (c : Column) : (F i).data.get name c = none :=
      Option.eq_none_iff_forall_not_mem.2 fun _ cell => Nat.not_le.2 wide (sound.narrow cell)
    exact (laws.session_refused hw (used name List.mem_cons_self) steps unfit empty).map
  | copy src dst =>
    simp only [Step.Fits, not_forall, not_or] at unfit
    obtain ⟨n, found, onto, long⟩ := unfit
    rw [act, copy_unlinked (unlinked src dst rfl) onto]
    have absent (gone : dst ∉ (F i).lengths) : ∀ c, (F i).data.get dst c = none :=
      sound.absent (Std.ExtTreeMap.getElem?_eq_none gone)
    exact (laws.byteCopy_refused laws hw hw (used dst List.mem_cons_self) absent found long).map

/-- a step for which nothing was too large leaves stocks of which all is true that always is -/
theorem act_reaches (laws : d.Laws i R) {step : Step} (unlinked : ∀ src dst, step = .copy src dst → d.data.linker = none)
    (hw : 0 < d.data.width) (sound : (F i).Sound d.data.width) (used : ∀ name ∈ step.touches, U name) (hs : Stocked R U s F)
    (clean : (d.act step s).1 ≠ .error .tooLarge) :
    ∃ f, Stocked R U (d.act step s).2 (Function.update F i f) ∧ f.Sound d.data.width := by
  have fits : step.Fits d.data.width (F i) := by
    by_contra unfit
    exact clean (laws.act_refused unlinked hw sound used unfit s hs)
  obtain ⟨_, after, f, sound', rfl⟩ := laws.act_sound unlinked hw sound used fits s hs
  exact ⟨f, after, sound'⟩

end Laws

end Directory

/-! ## A vault -/

structure Vault where
  cache : CacheState := {}
  data : Table Column := .empty
  catalog : CatalogState := {}
  names : Table Column := .empty
  clock : UInt64 := 0
  /-- how often an order has been drawn -/
  drawn : Nat := 0

/-- how a vault works: the settings of its cache and its directory, how wide its tables are, and the orders in which it
writes cells and files -/
structure Vault.Ways where
  cached : CacheSettings
  settings : DirectorySettings
  width : Nat
  nameWidth : Nat
  /-- the order drawn at the `n`th time for some cells -/
  cells : Nat → List (Address Column) → List (Address Column)
  /-- the order drawn at the `n`th time for some files -/
  files : Nat → List Key → List Key
  positive : 0 < width
  cells_perm : ∀ n as, (cells n as).Perm as
  files_perm : ∀ n keys, (files n keys).Perm keys

namespace Vault

inductive Step where
  /-- a step on the directory -/
  | files (step : Directory.Step)
  | evict
  | flushCache (empty : Bool)
  | clock (time : UInt64)

def Step.touches : Step → List Key
  | .files step => step.touches
  | .evict | .flushCache _ | .clock _ => []

/-- the names of files that steps may make or remove -/
def InUse (steps : List Step) (name : Key) : Prop := ∃ step ∈ steps, name ∈ step.touches

/-- the two tables, and nothing that was held in memory -/
def tables (g : Vault) : Vault := { data := g.data, names := g.names }

/-- an order of a list of any kind, drawn from the vault -/
def draw {α : Type} (orders : Nat → List α → List α) (as : List α) : Run Vault (List α) :=
  fun g => (.ok (orders g.drawn as), { g with drawn := g.drawn + 1 })

def time : Part (Run Vault) UInt64 := Run.part Vault.clock fun t g => { g with clock := t }

namespace Ways

variable (w : Ways)

def table : Store (Run Vault) := Table.store (Run.part Vault.data fun t g => { g with data := t }) w.width

def cache : Cache (Run Vault) where
  inner := w.table.toRows
  settings := w.cached
  state := Run.part Vault.cache fun x g => { g with cache := x }
  now := time.read
  order := draw w.cells

def catalog : Catalog (Run Vault) where
  rows := Table.rows (Run.part Vault.names fun t g => { g with names := t }) w.nameWidth
  state := Run.part Vault.catalog fun x g => { g with catalog := x }
  order := draw w.files

/-- a directory whose data lie in a store -/
def directoryOver (data : Store (Run Vault)) : Directory (Run Vault) where
  identity := 0
  data := data
  catalog := w.catalog
  settings := w.settings
  now := time.read
  order := draw w.cells

/-- the directory of the vault, whose data lie behind the cache -/
def directory : Directory (Run Vault) := w.directoryOver (w.cache.store w.table)

/-- a directory whose data lie in the table itself -/
def direct : Directory (Run Vault) := w.directoryOver w.table

def act : Step → Run Vault Site.Answer
  | .files step => w.directory.act step
  | .evict => (fun _ => .done) <$> w.cache.runEvictions
  | .flushCache empty => (fun _ => .done) <$> w.cache.flush empty
  | .clock t => (fun _ => .done) <$> time.write t

/-- the outcomes of steps one after another, and the vault that they leave -/
def play : List Step → Vault → List (Except Error Site.Answer) × Vault
  | [], g => ([], g)
  | step :: rest, g =>
    let (o, g) := w.act step g
    let (os, g) := play rest g
    (o :: os, g)

end Ways

/-! ## What a vault shows -/

/-- what a vault shows of its cache, with the catalog and the names beside it -/
def Viewed (g : Vault) (v : Layer CacheState (CatalogState × Table Column)) : Prop :=
  g.cache = v.held ∧ g.data = v.beneath ∧ (g.catalog, g.names) = v.rest

/-- what a vault shows of its catalog, with the cache and the data beside it -/
def Filed (g : Vault) (v : Layer CatalogState (CacheState × Table Column)) : Prop :=
  g.catalog = v.held ∧ g.names = v.beneath ∧ (g.cache, g.data) = v.rest

/-- a shelf of a vault, with plain data for which the cache and the table beneath stand -/
def Behind (g : Vault) (v : Shelf) : Prop := Layer.Plain Viewed (v.catalog, v.names) g v.data

/-- a shelf of a vault without its cache -/
def Bare (g : Vault) (v : Shelf) : Prop := g.catalog = v.catalog ∧ g.names = v.names ∧ g.data = v.data

/-- the only shelf that is shown is that of directory 0 -/
def Only (B : Vault → Shelf → Prop) (g : Vault) (V : Shelves) : Prop := B g (V 0)

/-- a shelf has what the catalog holds and its rows -/
structure Follows (B : Vault → Shelf → Prop) : Prop where
  held : ∀ {g v}, B g v → g.catalog = v.catalog ∧ g.names = v.names
  move : ∀ {g v} x n k, B g v → B { g with catalog := x, names := n, drawn := k } { v with catalog := x, names := n }

theorem behind_follows : Follows Behind where
  held := by
    intro g v hs
    obtain ⟨u, viewed, stands⟩ := hs
    have rest := viewed.2.2.trans stands.rest
    exact ⟨congrArg Prod.fst rest, congrArg Prod.snd rest⟩
  move x n k := by
    intro hs
    obtain ⟨u, viewed, stands⟩ := hs
    exact ⟨{ u with rest := (x, n) }, ⟨viewed.1, viewed.2.1, rfl⟩, stands.coherent, rfl⟩

theorem bare_follows : Follows Bare where
  held hs := ⟨hs.1, hs.2.1⟩
  move _ _ _ hs := ⟨rfl, rfl, hs.2.2⟩

namespace Follows

variable {B : Vault → Shelf → Prop} {g : Vault} {v : Shelf}

theorem setCatalog (follows : Follows B) (hs : B g v) (x : CatalogState) :
    B { g with catalog := x } { v with catalog := x } := by
  rw [(follows.held hs).2]
  exact follows.move x v.names g.drawn hs

theorem setNames (follows : Follows B) (hs : B g v) (n : Table Column) : B { g with names := n } { v with names := n } := by
  rw [(follows.held hs).1]
  exact follows.move v.catalog n g.drawn hs

theorem drawn (follows : Follows B) (hs : B g v) (k : Nat) : B { g with drawn := k } v := by
  rw [(follows.held hs).1, (follows.held hs).2]
  exact follows.move v.catalog v.names k hs

end Follows

namespace Ways

theorem cache_laws (w : Ways) : w.cache.Laws Viewed Eq never where
  inner _ _ := Table.rows_serve (fun _ _ hs => hs.2.1) (fun _ _ _ hs => ⟨hs.1, rfl, hs.2.2⟩) w.width never
  read v _ hs := ⟨v, hs, _, rfl, hs.1, rfl⟩
  write x v _ hs := ⟨{ v with held := x }, ⟨rfl, hs.2⟩, (), rfl, rfl⟩
  now v _ hs := ⟨v, hs, _, rfl, rfl⟩
  order as v _ hs := ⟨v, hs, _, rfl, w.cells_perm _ as, rfl⟩

theorem catalog_laws (w : Ways) : w.catalog.Laws Filed Eq where
  inner _ _ := Table.rows_serve (fun _ _ hs => hs.2.1) (fun _ _ _ hs => ⟨hs.1, rfl, hs.2.2⟩) w.nameWidth never
  read v _ hs := ⟨v, hs, _, rfl, hs.1, rfl⟩
  write x v _ hs := ⟨{ v with held := x }, ⟨rfl, hs.2⟩, (), rfl, rfl⟩
  order keys v _ hs := ⟨v, hs, _, rfl, w.files_perm _ keys, rfl⟩

/-- what a directory of a vault builds on, wherever its data lie -/
theorem laws_over (w : Ways) {B : Vault → Shelf → Prop} (follows : Follows B) {data : Store (Run Vault)}
    (serves : ∀ x n, data.toRows.Serves (fun g t => B g ⟨x, n, t⟩) Eq never) : (w.directoryOver data).Laws 0 (Only B) where
  names V x t := by
    simp only [Only, Function.update_self]
    exact Table.rows_serve (fun _ _ hs => (follows.held hs).2) (fun _ _ n hs => follows.setNames hs n) w.nameWidth never
  trims V x t := by
    simp only [Only, Function.update_self]
    exact Table.rows_trim (fun _ _ hs => (follows.held hs).2) (fun _ _ n hs => follows.setNames hs n) w.nameWidth never
  read V g hs := ⟨V, hs, _, rfl, (follows.held hs).1, rfl⟩
  write x V g hs := by
    refine ⟨Function.update V 0 { V 0 with catalog := x }, ?_, (), rfl, rfl⟩
    rw [Only, Function.update_self]
    exact follows.setCatalog hs x
  orderKeys keys V g hs := ⟨V, follows.drawn hs _, _, rfl, w.files_perm _ keys, rfl⟩
  data V x n := by
    simp only [Only, Function.update_self]
    exact serves x n
  orderCells as V g hs := ⟨V, follows.drawn hs _, _, rfl, w.cells_perm _ as, rfl⟩

/-- **Data behind a cache are plain data** to the directory. -/
theorem directory_laws (w : Ways) : w.directory.Laws 0 (Only Behind) :=
  w.laws_over behind_follows fun x n => w.cache_laws.serves (x, n)

theorem direct_laws (w : Ways) : w.direct.Laws 0 (Only Bare) :=
  w.laws_over bare_follows fun _ _ =>
    Table.rows_serve (fun _ _ hs => hs.2.2) (fun _ _ _ hs => ⟨hs.1, hs.2.1, rfl⟩) w.width never

/-! ## Runs -/

variable {w : Ways} {U : Key → Prop} {F : Stocks} {g : Vault}

/-- what leaves the plain data as they were leaves the stocks as they were -/
theorem stocked_of_plain {α : Type} {x : Run Vault α} (h : ∀ r p, Yields (Layer.Plain Viewed r) x p fun _ q => q = p) :
    Ends (Stocked (Only Behind) U) x F fun _ G => G = F := by
  refine ends_stocked fun V keeps => ?_
  intro g hs
  obtain ⟨_, after, _, _, rfl⟩ := h _ _ g hs
  exact ⟨V, after, F, keeps, rfl⟩

/-- a step for which nothing was too large leaves a stock of which all is true that always is -/
theorem act_reaches (w : Ways) (hs : Stocked (Only Behind) U g F) (sound : (F 0).Sound w.width) {step : Step}
    (used : ∀ name ∈ step.touches, U name) (clean : (w.act step g).1 ≠ .error .tooLarge) :
    ∃ G, Stocked (Only Behind) U (w.act step g).2 G ∧ (G 0).Sound w.width := by
  cases step with
  | files step =>
    obtain ⟨f, after, sound'⟩ := w.directory_laws.act_reaches (fun _ _ _ => rfl) w.positive sound used hs clean
    refine ⟨_, after, ?_⟩
    rw [Function.update_self]
    exact sound'
  | evict =>
    have kept : Ends (Stocked (Only Behind) U) (w.act .evict) F fun _ G => G = F :=
      Ends.map_answer (stocked_of_plain w.cache_laws.runEvictions_plain)
    obtain ⟨_, after, rfl⟩ := kept g hs
    exact ⟨_, after, sound⟩
  | flushCache empty =>
    have kept : Ends (Stocked (Only Behind) U) (w.act (.flushCache empty)) F fun _ G => G = F :=
      Ends.map_answer (stocked_of_plain (w.cache_laws.flush_plain empty))
    obtain ⟨_, after, rfl⟩ := kept g hs
    exact ⟨_, after, sound⟩
  | clock t =>
    obtain ⟨V, shown, keeps⟩ := hs
    exact ⟨F, ⟨V, shown, keeps⟩, sound⟩

theorem play_reaches (w : Ways) (steps : List Step) (used : ∀ name, InUse steps name → U name)
    (hs : Stocked (Only Behind) U g F) (sound : (F 0).Sound w.width)
    (clean : ∀ o ∈ (w.play steps g).1, o ≠ .error .tooLarge) :
    ∃ G, Stocked (Only Behind) U (w.play steps g).2 G ∧ (G 0).Sound w.width := by
  induction steps generalizing g F with
  | nil => exact ⟨F, hs, sound⟩
  | cons step steps ih =>
    obtain ⟨G, after, sound'⟩ :=
      w.act_reaches hs sound (fun name here => used name ⟨step, List.mem_cons_self, here⟩) (clean _ List.mem_cons_self)
    exact ih (fun name ⟨s, there, here⟩ => used name ⟨s, List.mem_cons_of_mem step there, here⟩) after sound'
      fun o ho => clean o (List.mem_cons_of_mem _ ho)

/-- a new vault has no files -/
theorem stocked_empty (U : Key → Prop) : Stocked (Only Behind) U {} fun _ => {} := by
  refine ⟨fun _ => {}, ⟨⟨{}, .empty, _⟩, ⟨rfl, rfl, rfl⟩, .new _, rfl⟩, fun _ => ?_⟩
  have empty := Layer.Indexes.empty U ()
  exact ⟨empty.records.coherent, empty.orderly, rfl⟩

/-! ## After a sync -/

/-- **A sync** leaves all files in the two tables, so that nothing need be held in memory. -/
theorem synced (w : Ways) (hs : Stocked (Only Behind) U g F) :
    ∃ g', w.act (.files .sync) g = (.ok .done, g') ∧ Stocked (Only Behind) U g' F ∧
      Stocked (Only Bare) U g'.tables F := by
  obtain ⟨V, ⟨v, viewed, stands⟩, keeps⟩ := hs
  -- the cache is written out to the data
  obtain ⟨v₁, viewed₁, stands₁, ⟨done, unmarked⟩ | ⟨_, failed⟩⟩ := w.cache_laws.sync stands g viewed
  case inr => rcases failed with failed | failed; exacts [absurd failed Cache.Laws.not_putsFail, failed.elim]
  let g₁ := (w.cache.rows.sync g).2
  have run₁ : w.cache.rows.sync g = (.ok (), g₁) := Prod.ext done rfl
  -- the lengths are written out to the names
  have filed : Filed g₁ ⟨(V 0).catalog, (V 0).names, (v₁.held, v₁.beneath)⟩ := by
    have rest := viewed₁.2.2.trans stands₁.rest
    exact ⟨congrArg Prod.fst rest, congrArg Prod.snd rest, by rw [viewed₁.1, viewed₁.2.1]⟩
  have indexes : Layer.Indexes ⟨(V 0).catalog, (V 0).names, (v₁.held, v₁.beneath)⟩ U (F 0).lengths (v₁.held, v₁.beneath) :=
    ⟨⟨(keeps 0).lengths, rfl⟩, (keeps 0).orderly⟩
  obtain ⟨_, g₂, u, run₂, ⟨held, beneath, rest⟩, indexes₂, clean⟩ :=
    (w.catalog_laws.flush_written indexes false).run filed
  have kept := Prod.ext_iff.1 (rest.trans indexes₂.records.rest)
  have ran : w.directory.sync g = (.ok (), g₂) := (bind_of_ok run₁).trans ((bind_of_ok run₂).trans rfl)
  have shelved (x : CatalogState) (same : Layer.Indexes ⟨x, u.beneath, u.rest⟩ U (F 0).lengths (v₁.held, v₁.beneath)) (k : Nat) :
      (Function.update V 0 ⟨x, u.beneath, (V 0).data⟩ k).Keeps U (F k) := by
    have here : Shelf.Keeps ⟨x, u.beneath, (V 0).data⟩ U (F 0) := ⟨same.records.coherent, same.orderly, (keeps 0).data⟩
    have all := keeps_update (i := 0) keeps here k
    rwa [Function.update_eq_self] at all
  refine ⟨g₂, ?_, ⟨_, ?_, shelved u.held indexes₂⟩, ⟨_, ?_, shelved {} (indexes₂.reopened clean)⟩⟩
  · rw [act, Directory.act, map_apply, ran]
  · rw [Only, Function.update_self]
    exact ⟨{ v₁ with rest := (u.held, u.beneath) }, ⟨kept.1, kept.2, by rw [held, beneath]⟩, stands₁.coherent, rfl⟩
  · rw [Only, Function.update_self]
    exact ⟨rfl, beneath, kept.2.trans (stands₁.coherent.eq_of_unmarked unmarked)⟩

/-! ## Files after a sync -/

/-- **After a sync the two tables have all files.** Take any run on an empty vault in which nothing was too large, and then
a sync, which does not fail. A new directory over the two tables alone lists the same files as the old one, with the same
lengths and the same bytes. -/
theorem tables_after_sync (w : Ways) (steps : List Step) (apart : Catalog.Apart (InUse steps))
    (clean : ∀ o ∈ (w.play steps {}).1, o ≠ .error .tooLarge) :
    ∃ g names, w.act (.files .sync) (w.play steps {}).2 = (.ok .done, g) ∧
      (w.directory.list g).1 = .ok names ∧ (w.direct.list g.tables).1 = .ok names ∧
      (∀ name, name ∈ names ↔ ∃ n, (w.directory.length name g).1 = .ok n) ∧
      ∀ name, (w.direct.length name g.tables).1 = (w.directory.length name g).1 ∧
        (w.direct.readFile name g.tables).1 = (w.directory.readFile name g).1 ∧
        ∀ offset len, (w.direct.withReader name (fun r => r.readBytes offset len) g.tables).1 =
          (w.directory.withReader name (fun r => r.readBytes offset len) g).1 := by
  obtain ⟨F, reached, _⟩ := w.play_reaches steps (fun _ => id) (stocked_empty _) (Stock.Sound.empty w.width) clean
  obtain ⟨g, run, behind, bare⟩ := w.synced reached
  obtain ⟨_, _, names, listed, rfl, _⟩ := w.directory_laws.list apart g behind
  obtain ⟨_, _, _, listed', rfl, _⟩ := w.direct_laws.list apart g.tables bare
  refine ⟨g, _, run, listed, listed', fun name => ?_, fun name => ?_⟩
  · rw [(w.directory_laws.asked w.positive behind name).1, Catalog.Index.find, Std.ExtTreeMap.mem_keys,
      Std.ExtTreeMap.mem_iff_isSome_getElem?]
    cases (F 0).lengths[name]? <;> simp
  · obtain ⟨length, whole, stretch⟩ := w.directory_laws.asked w.positive behind name
    obtain ⟨length', whole', stretch'⟩ := w.direct_laws.asked w.positive bare name
    exact ⟨length'.trans length.symm, whole'.trans whole.symm, fun offset len =>
      (stretch' offset len).trans (stretch offset len).symm⟩

/-- cells may be turned round -/
theorem cells_backwards (cells : List (Address Column)) : cells.reverse.Perm cells := List.reverse_perm cells

/-- a vault with narrow columns that writes backwards -/
def backwards (cached : CacheSettings) : Ways where
  cached := cached
  settings := {}
  width := 4
  nameWidth := 64
  cells _ := List.reverse
  files _ := List.reverse
  positive := by decide
  cells_perm _ := cells_backwards
  files_perm _ := List.reverse_perm

/-- a file is copied and deleted, and its copy appended to, while cells come and go -/
theorem tables_after_sync_copied :
    let w := backwards { eviction := .always }
    let steps : List Step := [.files (.write "a" [.write [1, 2, 3, 4, 5]]), .flushCache true, .files (.copy "a" "b"), .evict,
      .files (.delete "a"), .files (.write "b" [.write [6], .flush, .write [7]]), .files (.read "a" 0 1)]
    ∃ g names, w.act (.files .sync) (w.play steps {}).2 = (.ok .done, g) ∧
      (w.directory.list g).1 = .ok names ∧ (w.direct.list g.tables).1 = .ok names ∧ names = ["b"] ∧
      (w.direct.length "b" g.tables).1 = (w.directory.length "b" g).1 ∧
      (w.direct.readFile "b" g.tables).1 = (w.directory.readFile "b" g).1 ∧
      (w.directory.readFile "b" g).1 = .ok [1, 2, 3, 4, 5, 6, 7] := by
  intro w steps
  have all : ∀ name ∈ steps.flatMap Step.touches, name ∈ ["a", "b"] := by decide
  have apart : Catalog.Apart (InUse steps) :=
    .of_nodup _ (fun name ⟨step, here, touched⟩ => all name (List.mem_flatMap.2 ⟨step, here, touched⟩)) (by decide +kernel)
  obtain ⟨g, names, run, listed, listed', _, same⟩ := tables_after_sync w steps apart (by decide +kernel)
  obtain rfl : (w.act (.files .sync) (w.play steps {}).2).2 = g := congrArg Prod.snd run
  have found : (w.directory.list (w.act (.files .sync) (w.play steps {}).2).2).1 = .ok ["b"] := by decide +kernel
  obtain ⟨length, whole, _⟩ := same "b"
  exact ⟨_, names, run, listed, listed', Except.ok.inj (listed.symm.trans found), length, whole, by decide +kernel⟩

end Ways

end Vault

end RowFiles
