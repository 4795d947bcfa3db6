/-
Sites whose stores may refuse calls.

On a brittle site every call of a store is asked for first, and may be refused without effect, at any time and for any
reason (`Plan.brittle`). `Plan.Works` says what a directory of a site builds on if its calls may be refused: what each call
answers and leaves if it is not. A directory of a plain site works like this and is never refused anything (`Plan.works`),
and so does one of a brittle site (`Plan.works_brittle`).

Operations on a directory break off where a call is refused, and leave what has been done by then:

- `Plan.Works.recorded`, `Plan.Works.forgotten`: a length that is set is known from then on, even if it is not written; a
  file that is forgotten is absent, unless the deletion of its length was refused.
- `Plan.Works.resolve`: the row of a key is found, or a new one is made.
- `Plan.Works.removed`: a file that is removed, however far that gets, leaves what `Site.Spares` says.
-/
import RowFiles.Proofs.Files.Answers

namespace RowFiles

open Run

/-! ## Refusals -/

/-- the stores of a site -/
inductive Place where
  /-- the lengths and the listing of a directory -/
  | names (i : Nat)
  | links (i : Nat)
  /-- the rows of data -/
  | rows
deriving DecidableEq, Repr

/-- the reason why the `n`th call on a site is refused, if it is -/
abbrev Refusals := Nat → Place → Call → Option Error

/-- the `n`th call is refused, and no other -/
def Refusals.once (n : Nat) (e : Error) : Refusals := fun m _ _ => if m = n then some e else none

/-- some call may be refused for a reason -/
def Refusals.May (refuse : Refusals) (e : Error) : Prop := ∃ n place q, refuse n place q = some e

/-- a site, how many calls it has been asked for, and which of them was refused last -/
structure Brittle where
  site : Site
  asked : Nat := 0
  refused : Option (Place × Call) := none

namespace Brittle

/-- a run on the site -/
def on {α : Type} (x : Run Site α) : Run Brittle α := Run.within Brittle.site (fun s b => { b with site := s }) x

def ask (refuse : Refusals) (place : Place) (q : Call) : Run Brittle Unit := fun b =>
  match refuse b.asked place q with
  | some e => (.error e, { b with asked := b.asked + 1, refused := some (place, q) })
  | none => (.ok (), { b with asked := b.asked + 1 })

/-- the calls of a store on the site, each of which is asked for first -/
def rows (refuse : Refusals) (place : Place) (r : Rows (Run Site)) : Rows (Run Brittle) :=
  (Rows.within Brittle.site (fun s b => { b with site := s }) r).guarded (ask refuse place)

end Brittle

namespace Plan

variable (p : Plan) (refuse : Refusals) (i : Nat)

def brittleLinks : LinkTable (Run Brittle) where
  links := Brittle.rows refuse (.links i) (p.linksOf i).links
  freshKey w := Brittle.on ((p.linksOf i).freshKey w)

def brittleShared : Store (Run Brittle) := { Brittle.rows refuse .rows (p.sharedStore i).toRows with }

/-- the `i`th directory, on a brittle site -/
def brittle : Directory (Run Brittle) where
  identity := i
  data :=
    if p.linked i then (p.brittleLinks refuse i).store (p.brittleShared refuse i)
    else { Brittle.rows refuse .rows (p.plainStore i).toRows with }
  catalog :=
    { rows := Brittle.rows refuse (.names i) (p.catalog i).rows
      state := ⟨Brittle.on (p.catalog i).state.read, fun x => Brittle.on ((p.catalog i).state.write x)⟩
      order := fun ks => Brittle.on ((p.catalog i).order ks) }
  settings := p.settings i
  now := pure 0
  order as := Brittle.on (draw p.walkCells as)

end Plan

/-! ## What calls do to a site -/

namespace Site

def setCatalog (v : Site) (i : Nat) (x : CatalogState) : Site := { v with catalogs := Function.update v.catalogs i x }

def setNames (v : Site) (i : Nat) (t : Table Column) : Site := { v with names := Function.update v.names i t }

/-- after a key has been drawn -/
def drawn (v : Site) : Site := { v with yard := { v.yard with made := v.yard.made + 1 } }

def link (v : Site) (i : Nat) (k q : Key) : Site := { v with yard := v.yard.link i k q }

def unlink (v : Site) (i : Nat) (k : Key) : Site := { v with yard := v.yard.unlink i k }

/-- after a row of data is deleted -/
def drop (v : Site) (q : Key) : Site := { v with yard := { v.yard with shared := v.yard.shared.delete q } }

/-- the same site with another probe -/
def probed (v : Site) (x : ProbeState Unit) : Site := { v with yard := { v.yard with probe := x } }

/-- a site is `v` but for what a probe without rules has counted -/
def Like (s v : Site) : Prop := ∃ x : ProbeState Unit, x.rules = [] ∧ s = v.probed x

/-- a site on which no call is refused -/
def Calm (q : Option (Place × Call)) (s v : Site) : Prop := q = none ∧ s.Like v

end Site

/-- what directory `i` builds on if its calls may be refused -/
structure Plan.Works {σ : Type} (p : Plan) (i : Nat) (d : Directory (Run σ)) (l : LinkTable (Run σ)) (inner : Store (Run σ))
    (R : Option (Place × Call) → σ → Site → Prop) (may : Error → Prop) : Prop where
  identity : d.identity = i
  settings : d.settings = p.settings i
  data : d.data = l.store inner
  width : inner.width = p.width i
  read : ∀ v, Yields (R none) d.catalog.state.read v fun x w => x = v.catalogs i ∧ w = v
  write : ∀ x v, Yields (R none) (d.catalog.state.write x) v fun _ w => w = v.setCatalog i x
  get : ∀ k c v, Answers R (d.catalog.rows.get k c) (.names i, .get k c) may v ((v.names i).get k c) v
  hasKey : ∀ k v, Answers R (d.catalog.rows.hasKey k) (.names i, .hasKey k) may v ((v.names i).hasKey k) v
  put : ∀ k c x v, Answers R (d.catalog.rows.put k c x) (.names i, .put k c x) may v ()
    (v.setNames i ((v.names i).put k c x))
  delete : ∀ k v, Answers R (d.catalog.rows.delete k) (.names i, .delete k) may v () (v.setNames i ((v.names i).delete k))
  deleteColumn : ∀ k c v, Answers R (d.catalog.rows.deleteColumn k c) (.names i, .deleteColumn k c) may v ()
    (v.setNames i ((v.names i).deleteColumn k c))
  draw : ∀ w v, Yields (R none) (l.freshKey w) v fun q u => q = p.fresh w v.yard.made ∧ u = v.drawn
  getLink : ∀ k v, Answers R (l.links.get k LinkTable.linkColumn) (.links i, .get k LinkTable.linkColumn) may v
    (v.yard.text i k) v
  link : ∀ k q v, Answers R (l.link k q) (.links i, .put k LinkTable.linkColumn (Utf8.encode q)) may v () (v.link i k q)
  unlink : ∀ k v, Answers R (l.unlink k) (.links i, .delete k) may v () (v.unlink i k)
  cell : ∀ q c v, Answers R (inner.get q c) (.rows, .get q c) may v (v.yard.shared.get q c) v
  drop : ∀ q v, Answers R (inner.delete q) (.rows, .delete q) may v () (v.drop q)

namespace Plan

variable {p : Plan} {i : Nat}

section Instances

variable {α : Type} {x : Run Site α} {q : Place × Call} {may : Error → Prop} {v w : Site} {a : α}

/-- no call is refused on a calm site -/
theorem calm (q : Place × Call) (s w : Site) : ¬ Site.Calm (some q) s w := nofun

/-- a call that does the same whatever a probe has counted -/
theorem calm_yields (h : ∀ y : ProbeState Unit, x (v.probed y) = (.ok a, w.probed y)) :
    Yields (Site.Calm none) x v fun b u => b = a ∧ u = w := by
  intro s hs
  obtain ⟨_, y, quiet, rfl⟩ := hs
  rw [h]
  exact ⟨w, ⟨rfl, y, quiet, rfl⟩, a, rfl, rfl, rfl⟩

theorem answers_of_yields (h : Yields (Site.Calm none) x v fun b u => b = a ∧ u = w) :
    Answers Site.Calm x q may v a w := by
  intro s hs
  obtain ⟨u, shown, b, ran, same⟩ := h s hs
  exact .inl ⟨b, u, ran, shown, same⟩

/-- a call that a probe without rules counts -/
theorem counted_yields {q : Call} (h : Yields (Site.Calm none) x v fun b u => b = a ∧ u = w) :
    Yields (Site.Calm none) (probe.before q >>= fun _ => x) v fun b u => b = a ∧ u = w := by
  have counts : Yields (Site.Calm none) (probe.before q) v fun _ u => u = v := by
    intro s hs
    obtain ⟨_, ⟨calls, bytes, rules⟩, quiet, rfl⟩ := hs
    obtain rfl : rules = [] := quiet
    exact ⟨v, ⟨rfl, ⟨q.name :: calls, bytes + q.bytes, []⟩, rfl, rfl⟩, (), rfl, rfl⟩
  exact counts.step h

/-- **No call is refused on a plain site.** -/
theorem works (is_linked : p.linked i = true) (may : Error → Prop) :
    p.Works i (p.directory i) (p.linksOf i) (p.sharedStore i) Site.Calm may where
  identity := rfl
  settings := rfl
  data := data_linked is_linked
  width := rfl
  read _ := calm_yields fun _ => rfl
  write _ _ := by
    intro s hs
    obtain ⟨_, y, quiet, rfl⟩ := hs
    exact ⟨_, ⟨rfl, y, quiet, rfl⟩, (), rfl, rfl⟩
  get _ _ _ := answers_of_yields (calm_yields fun _ => rfl)
  hasKey k v := by
    refine answers_of_yields (calm_yields fun _ => ?_)
    exact congrFun (Table.rows_hasKey (Run.part (fun s : Site => s.names i) _) (p.nameWidth i) k) _
  put _ _ _ _ := answers_of_yields (calm_yields fun _ => rfl)
  delete k v := by
    refine answers_of_yields (calm_yields fun _ => ?_)
    exact congrFun (Table.rows_delete (Run.part (fun s : Site => s.names i) _) (p.nameWidth i) k) _
  deleteColumn _ _ _ := answers_of_yields (calm_yields fun _ => rfl)
  draw _ _ := calm_yields fun _ => rfl
  getLink _ _ := answers_of_yields (calm_yields fun _ => rfl)
  link _ _ _ := answers_of_yields (calm_yields fun _ => rfl)
  unlink _ _ := answers_of_yields (calm_yields fun _ => linksOf_unlink ..)
  cell _ _ _ := answers_of_yields (counted_yields (calm_yields fun _ => rfl))
  drop _ _ := by
    refine answers_of_yields (counted_yields (calm_yields fun _ => ?_))
    rw [Table.store, Table.rows_delete]
    rfl

variable {refuse : Refusals}

/-- what is shown of a brittle site is its site, and which call was refused -/
def OnSite (q : Option (Place × Call)) (b : Brittle) (v : Site) : Prop := b.refused = q ∧ b.site.Like v

theorem on_yields {P : α → Site → Prop} (h : Yields (Site.Calm none) x v P) : Yields (OnSite none) (Brittle.on x) v P := by
  intro b hb
  obtain ⟨quiet, like⟩ := hb
  obtain ⟨u, ⟨_, like'⟩, done⟩ := h b.site ⟨rfl, like⟩
  exact ⟨u, ⟨quiet, like'⟩, done⟩

/-- a call that is asked for is made, or refused -/
theorem asked_answers {place : Place} {q : Call} (h : Answers Site.Calm x (place, q) refuse.May v a w) :
    Answers OnSite (Brittle.ask refuse place q >>= fun _ => Brittle.on x) (place, q) refuse.May v a w := by
  have asks : Answers OnSite (Brittle.ask refuse place q) (place, q) refuse.May v () v := by
    intro b hb
    obtain ⟨quiet, like⟩ := hb
    unfold Brittle.ask
    cases refused : refuse b.asked place q with
    | none => exact .inl ⟨(), v, rfl, ⟨quiet, like⟩, rfl, rfl⟩
    | some e => exact .inr ⟨e, _, v, rfl, ⟨rfl, like⟩, rfl, ⟨_, _, _, refused⟩, rfl⟩
  have made : Yields (Site.Calm none) x v fun b u => b = a ∧ u = w := by
    apply Breaks.yields h calm
    rintro e u ⟨none, -⟩
    cases none
  refine asks.next ?_ fun e refused => ⟨rfl, refused, rfl⟩
  intro b hb
  obtain ⟨u, shown, c, ran, same⟩ := on_yields made b hb
  exact .inl ⟨c, u, ran, shown, same⟩

/-- **Calls on a brittle site** are those of a plain one, unless they are refused. -/
theorem works_brittle (refuse : Refusals) (is_linked : p.linked i = true) :
    p.Works i (p.brittle refuse i) (p.brittleLinks refuse i) (p.brittleShared refuse i) OnSite refuse.May := by
  have plain := works is_linked refuse.May
  constructor
  case identity => rfl
  case settings => rfl
  case data => simp [brittle, is_linked]
  case width => rfl
  case read => exact fun v => on_yields (plain.read v)
  case write => exact fun x v => on_yields (plain.write x v)
  case get => exact fun k c v => asked_answers (plain.get k c v)
  case hasKey => exact fun k v => asked_answers (plain.hasKey k v)
  case put => exact fun k c x v => asked_answers (plain.put k c x v)
  case delete => exact fun k v => asked_answers (plain.delete k v)
  case deleteColumn => exact fun k c v => asked_answers (plain.deleteColumn k c v)
  case draw => exact fun w v => on_yields (plain.draw w v)
  case getLink => exact fun k v => asked_answers (plain.getLink k v)
  case link => exact fun k q v => asked_answers (plain.link k q v)
  case unlink => exact fun k v => asked_answers (plain.unlink k v)
  case cell => exact fun q c v => asked_answers (plain.cell q c v)
  case drop => exact fun q v => asked_answers (plain.drop q v)

end Instances

end Plan

/-! ## Lengths -/

namespace Site

/-- the length of a file is in memory, or in its row -/
def Knows (v : Site) (i : Nat) (k : Key) (n : UInt64) : Prop :=
  (v.catalogs i).lengths[k]? = some n ∨ (v.catalogs i).lengths[k]? = none ∧
    (v.names i).get (Catalog.lengthRow k) Catalog.lengthColumn = some (Bytes.ofUInt64 n)

/-- a file has no length, in memory or in its row -/
def Absent (v : Site) (i : Nat) (k : Key) : Prop :=
  (v.catalogs i).lengths[k]? = none ∧ ∀ c, (v.names i).get (Catalog.lengthRow k) c = none

/-- nothing differs but the catalog of a directory -/
structure Elsewhere (i : Nat) (v w : Site) : Prop where
  yard : w.yard = v.yard
  catalogs : ∀ m ≠ i, w.catalogs m = v.catalogs m
  names : ∀ m ≠ i, w.names m = v.names m

variable {u v w : Site} {i m : Nat} {k : Key} {n : UInt64}

@[refl] theorem Elsewhere.refl (i : Nat) (v : Site) : Elsewhere i v v := ⟨rfl, fun _ _ => rfl, fun _ _ => rfl⟩

theorem Elsewhere.trans (first : Elsewhere i u v) (later : Elsewhere i v w) : Elsewhere i u w :=
  ⟨later.yard.trans first.yard, fun m hm => (later.catalogs m hm).trans (first.catalogs m hm),
    fun m hm => (later.names m hm).trans (first.names m hm)⟩

theorem Elsewhere.setCatalog (h : Elsewhere i v w) (x : CatalogState) : Elsewhere i v (w.setCatalog i x) :=
  h.trans ⟨rfl, fun _ hm => Function.update_of_ne hm .., fun _ _ => rfl⟩

theorem Elsewhere.setNames (h : Elsewhere i v w) (t : Table Column) : Elsewhere i v (w.setNames i t) :=
  h.trans ⟨rfl, fun _ _ => rfl, fun _ hm => Function.update_of_ne hm ..⟩

theorem Knows.elsewhere (h : v.Knows m k n) (same : Elsewhere i v w) (other : m ≠ i) : w.Knows m k n := by
  rwa [Knows, same.catalogs m other, same.names m other]

theorem Absent.elsewhere (h : v.Absent m k) (same : Elsewhere i v w) (other : m ≠ i) : w.Absent m k := by
  rwa [Absent, same.catalogs m other, same.names m other]

end Site

/-- a call has been refused, for a reason that may be given -/
def Refused (may : Error → Prop) (q : Option (Place × Call)) (e : Error) : Prop := q.isSome = true ∧ may e

theorem refused_some {may : Error → Prop} (q : Place × Call) {e : Error} (h : may e) : Refused may (some q) e := ⟨rfl, h⟩

theorem not_refused_none {may : Error → Prop} {e : Error} : ¬ Refused may none e := nofun

namespace Plan.Works

variable {σ : Type} {p : Plan} {i : Nat} {d : Directory (Run σ)} {l : LinkTable (Run σ)} {inner : Store (Run σ)}
  {R : Option (Place × Call) → σ → Site → Prop} {may : Error → Prop} {v : Site} {k : Key} {n : UInt64}

theorem modify (laws : p.Works i d l inner R may) (f : CatalogState → CatalogState) (v : Site) :
    Yields (R none) (d.catalog.state.modify f) v fun _ w => w = v.setCatalog i (f (v.catalogs i)) :=
  (laws.read v).next (laws.write _ v)

/-- what follows a change in memory -/
theorem changes {α : Type} {f : Unit → Run σ α} {P : α → Site → Prop} {E : Option (Place × Call) → Error → Site → Prop}
    (laws : p.Works i d l inner R may) (g : CatalogState → CatalogState)
    (hf : Breaks R (f ()) (v.setCatalog i (g (v.catalogs i))) P E) :
    Breaks R (d.catalog.state.modify g >>= f) v P E :=
  (laws.modify g v).step_breaks hf

theorem reads {α : Type} {f : CatalogState → Run σ α} {P : α → Site → Prop}
    {E : Option (Place × Call) → Error → Site → Prop} (laws : p.Works i d l inner R may)
    (hf : Breaks R (f (v.catalogs i)) v P E) : Breaks R (d.catalog.state.read >>= f) v P E :=
  (laws.read v).next_breaks hf

/-- a length that is known is answered, and may be taken into memory -/
theorem length_known (laws : p.Works i d l inner R may) (known : v.Knows i k n) :
    Breaks R (d.length k) v (fun a w => a = n ∧ w.Knows i k n ∧ Site.Elsewhere i v w) fun q e w =>
      Refused may q e ∧ w = v := by
  apply laws.reads
  rcases known with held | ⟨absent, stored⟩
  · simp only [held]
    exact breaks_pure ⟨rfl, .inl held, .refl i v⟩
  · simp only [absent]
    refine (laws.get _ _ v).next ?_ fun e refused => ⟨refused_some _ refused, rfl⟩
    have whole : ¬ (Bytes.ofUInt64 n).length < 8 := by simp [Bytes.length_ofUInt64]
    simp only [stored, if_neg whole, Bytes.toUInt64_ofUInt64]
    apply laws.changes
    apply laws.reads
    have filled : ((v.setCatalog i ((v.catalogs i).fill k n)).catalogs i).lengths[k]? = some n := by
      simp [Site.setCatalog, CatalogState.lengths_fill _ n absent]
    refine breaks_pure ⟨?_, .inl filled, (Site.Elsewhere.refl i v).setCatalog _⟩
    rw [Std.ExtTreeMap.getD_eq_getD_getElem?, filled, Option.getD_some]

/-- a file that is absent has no length to answer -/
theorem length_absent (laws : p.Works i d l inner R may) (absent : v.Absent i k) :
    Breaks R (d.length k) v (fun _ _ => False) fun q e w => (e = .notFound k ∨ Refused may q e) ∧ w = v := by
  apply laws.reads
  simp only [absent.1]
  refine (laws.get _ _ v).next ?_ fun e refused => ⟨.inr (refused_some _ refused), rfl⟩
  simp only [absent.2]
  exact breaks_throw ⟨.inl rfl, rfl⟩

/-- whether a file is there is asked without effect, and one that is absent is not -/
theorem has (laws : p.Works i d l inner R may) :
    Breaks R (d.has k) v (fun yes w => (v.Absent i k → yes = false) ∧ w = v) fun q e w => Refused may q e ∧ w = v := by
  apply laws.reads
  split_ifs with held
  · refine breaks_pure ⟨fun absent => ?_, rfl⟩
    rw [Std.ExtTreeMap.contains_iff_mem, Std.ExtTreeMap.mem_iff_isSome_getElem?, absent.1] at held
    cases held
  · refine (laws.hasKey _ v).last ⟨fun absent => ?_, rfl⟩ fun e refused => ⟨refused_some _ refused, rfl⟩
    exact Table.hasKey_eq_false.2 absent.2

/-- a length is written, and then the entry in the listing, unless one of them is refused -/
theorem persisted (laws : p.Works i d l inner R may) (k : Key) (n : UInt64) (v : Site) :
    Breaks R (d.catalog.persist k n) v (fun _ w => w.catalogs = v.catalogs ∧ Site.Elsewhere i v w) fun q e w =>
      (∃ r c x, q = some (.names i, .put r c x)) ∧ may e ∧ w.catalogs = v.catalogs ∧ Site.Elsewhere i v w := by
  have same := Site.Elsewhere.refl i v
  refine (laws.put _ _ _ v).next ?_ fun e refused => ⟨⟨_, _, _, rfl⟩, refused, rfl, same⟩
  have written := same.setNames ((v.names i).put (Catalog.lengthRow k) Catalog.lengthColumn (Bytes.ofUInt64 n))
  exact (laws.put _ _ _ _).last ⟨rfl, written.setNames _⟩ fun e refused => ⟨⟨_, _, _, rfl⟩, refused, rfl, written⟩

/-- **A length that is set is known** from then on, even if it is not written. -/
theorem recorded (laws : p.Works i d l inner R may) (k : Key) (n : UInt64) (v : Site) :
    Breaks R (d.catalog.setLength k n true) v (fun _ w => w.Knows i k n ∧ Site.Elsewhere i v w) fun q e w =>
      (∃ r c x, q = some (.names i, .put r c x)) ∧ may e ∧ w.Knows i k n ∧ Site.Elsewhere i v w := by
  apply laws.changes
  obtain ⟨u, set⟩ : ∃ u, u = v.setCatalog i ((v.catalogs i).setLength k n) := ⟨_, rfl⟩
  have other : Site.Elsewhere i v u := set ▸ (Site.Elsewhere.refl i v).setCatalog _
  have held : (u.catalogs i).lengths[k]? = some n := by
    simp [set, Site.setCatalog, CatalogState.setLength]
  rw [← set, if_pos rfl]
  refine Breaks.bind (laws.persisted k n u) ?_ ?_
  · rintro _ w ⟨same, further⟩
    intro s hs
    obtain ⟨w', shown, _, ran, rfl⟩ := laws.modify _ w s hs
    refine .inl ⟨(), _, ran, shown, .inl ?_, (other.trans further).setCatalog _⟩
    simpa [Site.setCatalog, CatalogState.clean, same] using held
  · rintro q e w ⟨refused, why, same, further⟩
    exact ⟨refused, why, .inl (same ▸ held), other.trans further⟩

/-- **A file that is forgotten is absent**, unless the deletion of its length was refused. -/
theorem forgotten (laws : p.Works i d l inner R may) (k : Key) (v : Site) :
    Breaks R (d.catalog.delete k) v (fun _ w => w.Absent i k ∧ Site.Elsewhere i v w) fun q e w =>
      Refused may q e ∧ (w.Absent i k ∨ ∃ r, q = some (.names i, .delete r)) ∧ Site.Elsewhere i v w := by
  apply laws.changes
  obtain ⟨u, forget⟩ : ∃ u, u = v.setCatalog i ((v.catalogs i).forget k) := ⟨_, rfl⟩
  have other : Site.Elsewhere i v u := forget ▸ (Site.Elsewhere.refl i v).setCatalog _
  have unheld : (u.catalogs i).lengths[k]? = none := by
    simp [forget, Site.setCatalog, CatalogState.forget]
  rw [← forget]
  refine (laws.delete _ u).next ?_ fun e refused => ⟨refused_some _ refused, .inr ⟨_, rfl⟩, other⟩
  obtain ⟨w, deleted⟩ : ∃ w, w = u.setNames i ((u.names i).delete (Catalog.lengthRow k)) := ⟨_, rfl⟩
  have further : Site.Elsewhere i v w := deleted ▸ other.setNames _
  have empty (c : Column) : (w.names i).get (Catalog.lengthRow k) c = none := by
    simp [deleted, Site.setNames, Table.get_delete]
  have absent : w.Absent i k := ⟨deleted ▸ unheld, empty⟩
  rw [← deleted]
  refine (laws.deleteColumn _ _ w).last ⟨⟨absent.1, fun c => ?_⟩, further.setNames _⟩ fun e refused =>
    ⟨refused_some _ refused, .inl absent, further⟩
  simp [Site.setNames, Table.get_deleteColumn, empty]

end Plan.Works

/-! ## Rows -/

namespace Site

/-- links can be read, and no key that is yet to be drawn is a row -/
structure Sane (p : Plan) (v : Site) : Prop where
  legible : v.yard.Legible
  rows : ∀ {i k q}, v.yard.row i k = some q → ∃ w m, m < v.yard.made ∧ q = p.fresh w m
  cells : ∀ {q c x}, v.yard.shared.get q c = some x → ∃ w m, m < v.yard.made ∧ q = p.fresh w m

/-- what is true of a site stays true when rows are made for keys that have none -/
structure Grows (p : Plan) (I : Site → Prop) : Prop where
  sane : ∀ {v}, I v → v.Sane p
  drawn : ∀ {v}, I v → I v.drawn
  link : ∀ {v i k w}, I v → v.yard.row i k = none → I (v.drawn.link i k (p.fresh w v.yard.made))

/-- what is true of a site stays true when a file is removed, however far that gets -/
structure Spares (p : Plan) (i : Nat) (k : Key) (I : Site → Prop) : Prop extends Grows p I where
  drop : ∀ {v q}, I v → v.yard.row i k = some q → I (v.drop q)
  unlink : ∀ {v}, I v → I (v.unlink i k)
  elsewhere : ∀ {v w}, I v → Elsewhere i v w → I w

variable {p : Plan} {v : Site} {i : Nat} {k q : Key} {w : Nat} {c : Column}

theorem row_link (v : Site) (i m : Nat) (k l q : Key) :
    (v.link i k q).yard.row m l = if i = m ∧ k = l then some q else v.yard.row m l := v.yard.row_link i m k l q

theorem row_unlink (v : Site) (i m : Nat) (k l : Key) :
    (v.unlink i k).yard.row m l = if i = m ∧ k = l then none else v.yard.row m l := v.yard.row_unlink i m k l

namespace Sane

/-- a key that is yet to be drawn is no row of any key -/
theorem row_ne (h : v.Sane p) {m : Nat} {l : Key} : v.yard.row m l ≠ some (p.fresh w v.yard.made) := by
  intro there
  obtain ⟨_, _, before, same⟩ := h.rows there
  exact absurd (p.distinct same) (Nat.ne_of_gt before)

/-- a row that is yet to be drawn is empty -/
theorem empty (h : v.Sane p) : v.yard.shared.get (p.fresh w v.yard.made) c = none := by
  cases found : v.yard.shared.get (p.fresh w v.yard.made) c with
  | none => rfl
  | some x =>
    obtain ⟨_, _, before, same⟩ := h.cells found
    exact absurd (p.distinct same) (Nat.ne_of_gt before)

theorem drawn (h : v.Sane p) : v.drawn.Sane p where
  legible := h.legible
  rows there := by
    obtain ⟨w, m, before, same⟩ := h.rows there
    exact ⟨w, m, Nat.lt_succ_of_lt before, same⟩
  cells there := by
    obtain ⟨w, m, before, same⟩ := h.cells there
    exact ⟨w, m, Nat.lt_succ_of_lt before, same⟩

theorem link (h : v.Sane p) (i : Nat) (k : Key) (row : ∃ w m, m < v.yard.made ∧ q = p.fresh w m) :
    (v.link i k q).Sane p where
  legible := h.legible.link i k q
  rows there := by
    rw [row_link] at there
    split_ifs at there
    · cases there
      exact row
    · exact h.rows there
  cells := h.cells

theorem unlink (h : v.Sane p) (i : Nat) (k : Key) : (v.unlink i k).Sane p where
  legible := h.legible.unlink i k
  rows there := by
    rw [row_unlink] at there
    split_ifs at there
    exact h.rows there
  cells := h.cells

theorem drop (h : v.Sane p) (q : Key) : (v.drop q).Sane p where
  legible := h.legible
  rows := h.rows
  cells {r c x} there := by
    change (v.yard.shared.delete q).get r c = some x at there
    rw [Table.get_delete] at there
    split_ifs at there
    exact h.cells there

theorem elsewhere {u : Site} (h : v.Sane p) (same : Elsewhere i v u) : u.Sane p := by
  obtain ⟨legible, rows, cells⟩ := h
  rw [← same.yard] at legible
  refine ⟨legible, ?_, ?_⟩
  · rwa [same.yard]
  · rwa [same.yard]

end Sane

end Site

namespace Plan.Works

variable {σ : Type} {p : Plan} {i : Nat} {d : Directory (Run σ)} {l : LinkTable (Run σ)} {inner : Store (Run σ)}
  {R : Option (Place × Call) → σ → Site → Prop} {may : Error → Prop} {v : Site} {k : Key} {I : Site → Prop}

theorem lookup (laws : p.Works i d l inner R may) (legible : v.yard.Legible) (k : Key) :
    Answers R (l.lookup k) (.links i, .get k LinkTable.linkColumn) may v (v.yard.row i k) v := by
  refine (laws.getLink k v).next ?_ fun e refused => ⟨rfl, refused, rfl⟩
  rw [legible i k]
  cases v.yard.row i k with
  | none => exact breaks_pure ⟨rfl, rfl⟩
  | some q =>
    simp only [Option.map_some, Utf8.decode_encode]
    exact breaks_pure ⟨rfl, rfl⟩

/-- **The row of a key is found**, or a new one is made. -/
theorem resolve (laws : p.Works i d l inner R may) (grows : Site.Grows p I) (k : Key) (h : I v) :
    Breaks R (l.resolve k) v (fun r w => I w ∧ w.yard.row i k = some r) fun q e w => Refused may q e ∧ I w := by
  have looked := laws.lookup (grows.sane h).legible k
  refine looked.next ?_ fun e refused => ⟨refused_some _ refused, h⟩
  cases there : v.yard.row i k with
  | some r => exact breaks_pure ⟨h, there⟩
  | none =>
    refine looked.next ?_ fun e refused => ⟨refused_some _ refused, h⟩
    rw [there]
    refine (laws.draw _ v).breaks ?_
    rintro _ _ ⟨rfl, rfl⟩
    refine (laws.link k _ v.drawn).next ?_ fun e refused => ⟨refused_some _ refused, grows.drawn h⟩
    exact breaks_pure ⟨grows.link h there, by rw [Site.row_link, if_pos ⟨rfl, rfl⟩]⟩

theorem deleted (laws : p.Works i d l inner R may) (spares : Site.Spares p i k I) (h : I v) :
    Breaks R (d.data.delete k) v (fun _ w => I w) fun q e w => Refused may q e ∧ I w := by
  rw [laws.data]
  refine Breaks.bind (laws.resolve spares.toGrows k h) ?_ fun _ _ _ hw => hw
  rintro r w ⟨kept, row⟩
  refine (laws.drop r w).next ?_ fun e refused => ⟨refused_some _ refused, kept⟩
  have dropped := spares.drop kept row
  exact (laws.unlink k _).last (spares.unlink dropped) fun e refused => ⟨refused_some _ refused, dropped⟩

/-- **A file is removed**, or part of it is. -/
theorem removed (laws : p.Works i d l inner R may) (spares : Site.Spares p i k I) (h : I v) :
    Breaks R (d.remove k) v (fun _ w => I w) fun q e w => Refused may q e ∧ I w := by
  refine Breaks.bind (laws.deleted spares h) ?_ fun _ _ _ hw => hw
  intro _ w kept
  refine Breaks.mono (laws.forgotten k w) ?_ ?_
  · rintro _ u ⟨_, same⟩
    exact spares.elsewhere kept same
  · rintro q e u ⟨refused, _, same⟩
    exact ⟨refused, spares.elsewhere kept same⟩

theorem removedIfPresent (laws : p.Works i d l inner R may) (spares : Site.Spares p i k I) (h : I v) :
    Breaks R (d.removeIfPresent k) v (fun _ w => I w) fun q e w => Refused may q e ∧ I w := by
  refine Breaks.bind laws.has ?_ ?_
  · rintro yes _ ⟨-, rfl⟩
    cases yes with
    | false => exact breaks_pure h
    | true => exact laws.removed spares h
  · rintro q e _ ⟨refused, rfl⟩
    exact ⟨refused, h⟩

/-- a file is deleted, in part or not at all -/
theorem deletion (laws : p.Works i d l inner R may) (spares : Site.Spares p i k I) (h : I v) :
    Breaks R (d.delete k) v (fun _ w => I w) fun _ _ w => I w := by
  refine Breaks.bind laws.has ?_ ?_
  · rintro yes _ ⟨-, rfl⟩
    cases yes with
    | false => exact Breaks.bind (breaks_throw h) (fun _ _ none => none) fun _ _ _ kept => kept
    | true => exact Breaks.mono (laws.removed spares h) (fun _ _ kept => kept) fun _ _ _ hw => hw.2
  · rintro q e _ ⟨_, rfl⟩
    exact h

end Plan.Works

end RowFiles
