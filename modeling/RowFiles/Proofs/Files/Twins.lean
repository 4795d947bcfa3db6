/-
Directories opened over the stores of another.

Such directories (`Plan.twin`) share the rows of names and data, but each has a memory and settings of its own. What a copy
compares to tell whether a file is copied onto itself are the directories and not their stores.

- `Plan.twin_laws`: a twin works on the shelf of the directory whose stores it is opened over, and leaves the memories of
  the others alone.
- `Plan.byteCopy_blanks`, `Plan.linkCopy_blanks`: from one twin to another a file is removed before it is read, be its
  bytes copied or its row.
- `Plan.copied_onto_itself`: so a file copied onto itself is left alone by one directory, and loses its bytes between two.
-/
import RowFiles.Proofs.Files.Answers
import RowFiles.Proofs.Files.Reopening

namespace RowFiles

open Run

/-! ## Twins -/

namespace Plan

variable (p : Plan)

/-- a directory over the stores of directory `i`, with the memory and the settings of number `m` -/
def twin (i m : Nat) : Directory (Run Site) :=
  { p.directory i with
    identity := m
    settings := p.settings m
    catalog := { p.catalog i with state := (p.catalog m).state } }

/-- the shelves of a site as twin `m` of directory `i` works on them: its memory is on the shelf of the directory, and the
memories that are not its own are those of `c` -/
def seen (i m : Nat) (c : Nat → CatalogState) (V : Shelves) : Shelves :=
  fun k => { V k with catalog := if k = m then (V i).catalog else c k }

/-- what a site shows of twin `m`, while the other memories are those of `c` -/
def Sees (i m : Nat) (c : Nat → CatalogState) (s : Site) (V : Shelves) : Prop := p.Shown s (seen i m c V)

variable {p} {i a b m : Nat} {c : Nat → CatalogState} {s : Site} {V : Shelves} {U : Key → Prop} {F : Stocks} {f : Key}

theorem sees_update (V : Shelves) (x : CatalogState) (n t : Table Column) :
    p.Sees i m c s (Function.update V i ⟨x, n, t⟩) ↔ p.Shown s (Function.update
      (seen i m c (Function.update V i { V i with catalog := x })) i ⟨if i = m then x else c i, n, t⟩) := by
  rw [Sees]
  refine iff_of_eq (congrArg _ (funext fun k => ?_))
  by_cases here : k = i
  · subst here
    simp [seen]
  · simp [seen, here]

theorem positive_twin (p : Plan) (i m : Nat) : 0 < (p.twin i m).data.width := p.positive_directory i

theorem width_twin (p : Plan) (i m : Nat) : (p.twin i m).data.width = p.width i := p.width_directory i

/-- **A twin works on the shelf of its directory** and leaves the memories of the others alone. -/
theorem twin_laws (p : Plan) (i m : Nat) (c : Nat → CatalogState) : (p.twin i m).Laws i (p.Sees i m c) where
  names V x t := by
    simp only [sees_update]
    exact (directory_laws p i).names _ _ t
  trims V x t := by
    simp only [sees_update]
    exact (directory_laws p i).trims _ _ t
  read V s hs := by
    refine ⟨V, hs, _, rfl, (congrFun hs.1 m).trans ?_, rfl⟩
    rw [Function.comp_apply, seen, if_pos rfl]
  write x V s hs := by
    refine ⟨_, ?_, (), rfl, rfl⟩
    have kept := Shows.racked hs |>.setCatalog (r := { s with catalogs := Function.update s.catalogs m x }) rfl rfl fun _ => id
    have same : Function.update (seen i m c V) m { seen i m c V m with catalog := x } =
        seen i m c (Function.update V i { V i with catalog := x }) := by
      funext k
      by_cases here : k = m <;> by_cases there : k = i <;> simp_all [seen]
    rwa [same] at kept
  orderKeys ks V s hs := ⟨V, hs, _, rfl, p.permKeys s.orders ks, rfl⟩
  data V x n := by
    simp only [sees_update]
    exact (directory_laws p i).data _ _ n
  orderCells as V s hs := ⟨V, hs, _, rfl, p.permCells s.orders as, rfl⟩

/-- another twin may fill its memory -/
theorem Sees.beside (h : p.Sees i b c s V) (other : a ≠ b) (x : CatalogState) (k : Nat) :
    p.Sees i b (Function.update c a x) { s with catalogs := Function.update s.catalogs a x, orders := k } V := by
  obtain ⟨catalogs, names, stands⟩ := h
  refine ⟨?_, names, stands⟩
  funext l
  by_cases here : l = a
  · subst here
    simp [seen, other]
  · simp [seen, here, catalogs]

/-- the memory that a twin works on may be any in the account of the others -/
theorem Sees.congr (h : p.Sees i m c s V) {c' : Nat → CatalogState} (same : ∀ k, k ≠ m → c' k = c k) :
    p.Sees i m c' s V := by
  obtain ⟨catalogs, names, stands⟩ := h
  refine ⟨catalogs.trans (funext fun k => ?_), names, stands⟩
  by_cases here : k = m
  · simp [seen, here]
  · simp [seen, here, same k here]

/-! ### What a twin does to lengths -/

/-- the sites that differ from `s` in one memory, in the names of one directory and in the orders drawn -/
def Filed (s : Site) (i m : Nat) (r : Site) (v : Layer CatalogState Unit) : Prop :=
  ∃ k, r = { s with
    catalogs := Function.update s.catalogs m v.held
    names := Function.update s.names i v.beneath
    orders := k }

theorem filed_start (s : Site) (i m : Nat) : Filed s i m s ⟨s.catalogs m, s.names i, ()⟩ :=
  ⟨s.orders, by rw [Function.update_eq_self, Function.update_eq_self]⟩

theorem twin_rows_file (p : Plan) (s : Site) (i m : Nat) (x : CatalogState) (u : Unit) :
    (p.twin i m).catalog.rows.Serves (fun r t => Filed s i m r ⟨x, t, u⟩) Eq never ∧
      (p.twin i m).catalog.rows.Trims (fun r t => Filed s i m r ⟨x, t, u⟩) never := by
  have names (r : Site) (t : Table Column) (h : Filed s i m r ⟨x, t, u⟩) : r.names i = t := by
    obtain ⟨_, rfl⟩ := h
    exact Function.update_self ..
  have set (r : Site) (t t' : Table Column) (h : Filed s i m r ⟨x, t, u⟩) :
      Filed s i m { r with names := Function.update r.names i t' } ⟨x, t', u⟩ := by
    obtain ⟨k, rfl⟩ := h
    exact ⟨k, by simp⟩
  exact ⟨Table.rows_serve names set (p.nameWidth i) never, Table.rows_trim names set (p.nameWidth i) never⟩

theorem twin_catalog_laws (p : Plan) (s : Site) (i m : Nat) : (p.twin i m).catalog.Laws (Filed s i m) Eq where
  inner x u := (twin_rows_file p s i m x u).1
  read v r hr := ⟨v, hr, _, rfl, by obtain ⟨k, rfl⟩ := hr; exact Function.update_self .., rfl⟩
  write x v r hr := by
    obtain ⟨k, rfl⟩ := hr
    refine ⟨{ v with held := x }, ⟨k, ?_⟩, (), rfl, rfl⟩
    change { s with
      catalogs := Function.update (Function.update s.catalogs m v.held) m x
      names := _
      orders := k } = _
    rw [Function.update_idem]
  order ks v r hr := ⟨v, by obtain ⟨k, rfl⟩ := hr; exact ⟨k + 1, rfl⟩, _, rfl, p.permKeys r.orders ks, rfl⟩

/-- a length is recorded -/
theorem recorded_twin (p : Plan) (s : Site) (i m : Nat) (f : Key) (n : UInt64) :
    ∃ r, (p.twin i m).catalog.setLength f n true s = (.ok (), r) ∧ r.yard = s.yard ∧
      r.catalogs = Function.update s.catalogs m (((s.catalogs m).setLength f n).clean f) := by
  obtain ⟨_, r, _, run, ⟨k, rfl⟩, rfl⟩ :=
    ((twin_catalog_laws p s i m).setLength_written f n _).run (filed_start s i m)
  exact ⟨_, run, rfl, rfl⟩

/-- a file is forgotten, and its length is removed from the names -/
theorem forgotten_twin (p : Plan) (s : Site) (i m : Nat) (f : Key) :
    ∃ r, (p.twin i m).catalog.delete f s = (.ok (), r) ∧ r.yard = s.yard ∧
      r.catalogs = Function.update s.catalogs m ((s.catalogs m).forget f) ∧
      r.names i = Catalog.forgotten (s.names i) f := by
  obtain ⟨_, r, _, run, ⟨k, rfl⟩, rfl⟩ := ((twin_catalog_laws p s i m).delete_forgotten
    (fun x u => (twin_rows_file p s i m x u).2) f _).run (filed_start s i m)
  exact ⟨_, run, rfl, rfl, Function.update_self ..⟩

/-- a file is not there for a twin that knows no length of it, if none is written -/
theorem lacks_of_unknown (unknown : (s.catalogs m).lengths[f]? = none)
    (absent : (s.names i).get (Catalog.lengthRow f) Catalog.lengthColumn = none) : (p.twin i m).Lacks s f := by
  obtain ⟨_, _, missing, _⟩ := (twin_catalog_laws p s i m).length_unknown unknown absent s (filed_start s i m)
  exact Directory.lacks_of_missing missing

/-- a twin that holds the length of a file in memory reads its row -/
theorem holds_of_known (shown : p.Shown s V) {b : Bytes} (small : b.length < UInt64.size)
    (known : (s.catalogs m).lengths[f]? = some (UInt64.ofNat b.length))
    (bytes : Layout.read (p.width i) (V i).data f 0 b.length = b) : (p.twin i m).Holds s f b := by
  obtain ⟨_, r, _, run, ⟨k, rfl⟩, rfl, rfl⟩ := ((twin_catalog_laws p s i m).length_known known).run (filed_start s i m)
  have length : (p.twin i m).length f s = (.ok (UInt64.ofNat b.length), { s with orders := k }) := by
    simp only [Function.update_eq_self] at run
    exact run
  refine ⟨congrArg Prod.fst length, small, fun offset len short within => ?_⟩
  rw [Directory.Laws.withReader_eq, bind_of_ok length]
  obtain ⟨_, _, read, _⟩ := (directory_laws p i).rowRead_shown (p.positive_directory i) V f (UInt64.ofNat b.length) offset
    len { s with orders := k } shown
  rw [p.width_directory, Layout.stretch_of_fits _ _ short (.inr (Nat.lt_of_le_of_lt within small)),
    Layout.read_of_whole (p.positive i) bytes within] at read
  exact read

/-! ### Twins that agree -/

variable (p) in
/-- the twins of a directory agree on its stock -/
def Twinned (i : Nat) (U : Key → Prop) (s : Site) (F : Stocks) : Prop := ∀ m, Stocked (p.Sees i m s.catalogs) U s F

namespace Twinned

variable {n : UInt64}

theorem holds_iff (agree : p.Twinned i U s F) (m : Nat) {g : Key} {b : Bytes} :
    (p.twin i m).Holds s g b ↔ (F i).Has (p.width i) g b := by
  rw [(twin_laws p i m s.catalogs).holds_iff (p.positive_twin i m) (agree m), width_twin]

/-- a file that answers all of some bytes at once has them -/
theorem holds_of_read (agree : p.Twinned i U s F) {b : Bytes} (short : b.length ≤ longestBuffer)
    (length : ((p.twin i m).length f s).1 = .ok (UInt64.ofNat b.length))
    (read : ((p.twin i m).withReader f (fun r => r.readBytes 0 b.length) s).1 = .ok b) : (p.twin i m).Holds s f b :=
  (twin_laws p i m s.catalogs).holds_of_read (p.positive_twin i m) (agree m) short length read

/-- twins still agree when one has found a length, which it holds in memory from then on -/
theorem length (agree : p.Twinned i U s F) (a : Nat) (found : (F i).lengths[f]? = some n) :
    ∃ r, (p.twin i a).length f s = (.ok n, r) ∧ p.Twinned i U r F ∧ (r.catalogs a).lengths[f]? = some n := by
  obtain ⟨_, r, _, run, seen, rfl, rfl⟩ := ((twin_laws p i a s.catalogs).lengthOf found).run (agree a)
  obtain ⟨_, ⟨k, filed⟩, x, rfl, held⟩ := (twin_catalog_laws p s i a).length_fills f _ s (filed_start s i a)
  obtain rfl : r = _ := (congrArg Prod.snd run).symm.trans filed
  simp only [Function.update_eq_self] at run seen ⊢
  refine ⟨_, run, fun m => ?_, ?_⟩
  · by_cases here : a = m
    · subst here
      obtain ⟨V, sees, keeps⟩ := seen
      exact ⟨V, sees.congr fun k other => Function.update_of_ne other .., keeps⟩
    · obtain ⟨V, sees, keeps⟩ := agree m
      exact ⟨V, sees.beside here x k, keeps⟩
  · change (Function.update s.catalogs a x a).lengths[f]? = _
    rw [Function.update_self]
    exact held _ (congrArg Prod.fst run)

/-- a file is removed by one twin -/
theorem removed (agree : p.Twinned i U s F) (used : U f) (there : f ∈ (F i).lengths) :
    ∃ r, (p.twin i b).removeIfPresent f s = (.ok (), r) ∧
      Stocked (p.Sees i b s.catalogs) U r (Function.update F i ((F i).without f)) := by
  have laws := twin_laws p i b s.catalogs
  obtain ⟨_, r, _, run, seen, rfl⟩ := (laws.removedIfPresent laws.deletes used fun gone => absurd there gone).run (agree b)
  exact ⟨r, run, seen⟩

/-! ### A file copied onto itself -/

/-- **Bytes that are copied** from one twin to another onto the same file are removed before they are read. -/
theorem byteCopy_blanks (agree : p.Twinned i U s F) (used : U f) (found : (F i).lengths[f]? = some n) (other : a ≠ b)
    (fits : CopyFits (p.width i) (p.width i) n) :
    ∃ r, Directory.byteCopy (p.twin i a) f (p.twin i b) f s = (.ok (), r) ∧
      (p.twin i a).Holds r f (Layout.zeros n.toNat) ∧ (p.twin i b).Holds r f (Layout.zeros n.toNat) := by
  obtain ⟨s₁, asked, agree, known⟩ := agree.length a found
  obtain ⟨s₂, removed, seen⟩ := agree.removed (b := b) used (Std.ExtTreeMap.mem_iff_isSome_getElem?.2 (by rw [found]; rfl))
  have laws := twin_laws p i b s₁.catalogs
  have positive := p.positive_twin i b
  rw [← p.width_twin i b] at fits
  have empty (c : Column) : (Function.update F i ((F i).without f) i).data.get f c = none := by
    rw [Function.update_self, Stock.get_without, if_pos rfl]
  have absent : f ∉ (Function.update F i ((F i).without f) i).lengths := by simp [Stock.without]
  obtain ⟨_, s₃, _, filled, seen, rfl⟩ := (laws.fill laws positive positive used absent empty fits).run seen
  rw [Layout.read_blank positive empty, Function.update_idem, Function.update_self, width_twin] at seen
  have has : ((F i).replaced (p.width i) f (Layout.zeros n.toNat)).Has (p.width i) f (Layout.zeros n.toNat) :=
    (F i).has_replaced (p.positive i) f (by rw [Layout.length_zeros]; exact n.toNat_lt_size)
  refine ⟨s₃, ?_, ?_, ?_⟩
  · rw [Directory.byteCopy_eq, bind_of_ok asked, bind_of_ok removed]
    exact filled
  · obtain ⟨V, sees, keeps⟩ := seen
    have memory : s₃.catalogs a = s₁.catalogs a := (congrFun sees.1 a).trans (if_neg other)
    refine holds_of_known sees has.small ?_ ?_
    · rw [memory, known, Layout.length_zeros, UInt64.ofNat_toNat]
    · change Layout.read (p.width i) (V i).data f 0 _ = _
      rw [(keeps i).data, Function.update_self]
      exact has.bytes
  · refine (laws.holds_iff positive seen).2 ?_
    rw [Function.update_self, width_twin]
    exact has

/-- where both twins move files, a copy moves the row -/
theorem linkCopy_eq (fast : (p.settings a).fastCopy = true) (fast' : (p.settings b).fastCopy = true)
    (linked : p.linked i = true) (src dst : Key) :
    Directory.linkCopy (p.twin i a) src (p.twin i b) dst = (do
      let length ← (p.twin i a).length src
      (p.twin i b).removeIfPresent dst
      let physical ← (p.linksOf i).resolve src
      (p.linksOf i).link dst physical
      (p.twin i b).catalog.setLength dst length true
      (p.twin i a).catalog.delete src
      (p.linksOf i).unlink src) := by
  have links (m : Nat) : (p.twin i m).data.linker = some (p.linksOf i).linker := by
    change (p.data i).linker = _
    rw [linker_data, linked]
    rfl
  exact Directory.linkCopy_linked fast fast' (links a) (links b) rfl src dst

/-- **A row that is moved** from one twin to another onto the same file is removed before it is moved. -/
theorem linkCopy_blanks (agree : p.Twinned i U s F) (used : U f) (found : (F i).lengths[f]? = some n) (other : a ≠ b)
    (fast : (p.settings a).fastCopy = true) (fast' : (p.settings b).fastCopy = true) (linked : p.linked i = true) :
    ∃ r, Directory.linkCopy (p.twin i a) f (p.twin i b) f s = (.ok (), r) ∧
      (p.twin i a).Lacks r f ∧ (p.twin i b).Holds r f (Layout.zeros n.toNat) := by
  obtain ⟨s₁, asked, agree, _⟩ := agree.length a found
  obtain ⟨s₂, removed, V, sees, keeps⟩ :=
    agree.removed (b := b) used (Std.ExtTreeMap.mem_iff_isSome_getElem?.2 (by rw [found]; rfl))
  obtain ⟨q, s₃, resolved, shown, row, _⟩ := resolve_run sees f (i := i)
  have links : (p.linksOf i).link f q s₃ = (.ok (), s₃) := by
    change (_, { s₃ with yard := s₃.yard.link i f q }) = _
    rw [Yard.link_same shown.2.2.1.legible row]
  obtain ⟨s₄, recorded, yard₄, catalogs₄⟩ := recorded_twin p s₃ i b f n
  obtain ⟨s₅, forgotten, yard₅, catalogs₅, names₅⟩ := forgotten_twin p s₄ i a f
  have empty (c : Column) : (V i).data.get f c = none := by
    rw [(keeps i).data, Function.update_self, Stock.get_without, if_pos rfl]
  refine ⟨{ s₅ with yard := s₅.yard.unlink i f }, ?_, ?_, ?_⟩
  · rw [linkCopy_eq fast fast' linked, bind_of_ok asked, bind_of_ok removed, bind_of_ok resolved, bind_of_ok links,
      bind_of_ok recorded, bind_of_ok forgotten]
    exact linksOf_unlink ..
  · refine lacks_of_unknown ?_ ?_
    · change (s₅.catalogs a).lengths[f]? = none
      rw [catalogs₅, Function.update_self]
      simp [CatalogState.forget]
    · change (s₅.names i).get _ _ = none
      rw [names₅, Catalog.get_forgotten, if_pos rfl]
  · have after : p.Shown { s₅ with yard := s₅.yard.unlink i f } fun m => ⟨s₅.catalogs m, s₅.names m, (V m).data⟩ := by
      refine ⟨rfl, rfl, ?_, trivial⟩
      rw [yard₅, yard₄]
      exact shown.2.2.1.unlink empty linked
    refine holds_of_known after ?_ ?_ ?_
    · rw [Layout.length_zeros]
      exact n.toNat_lt_size
    · change (s₅.catalogs b).lengths[f]? = _
      rw [catalogs₅, Function.update_of_ne (Ne.symm other), catalogs₄, Function.update_self, Layout.length_zeros, UInt64.ofNat_toNat]
      simp [CatalogState.clean, CatalogState.setLength]
    · rw [Layout.length_zeros]
      exact Layout.read_blank (p.positive i) empty ..

end Twinned

variable (p) in
/-- files move from one twin to another -/
def MovesOnto (i a b : Nat) : Prop :=
  (p.settings a).fastCopy = true ∧ (p.settings b).fastCopy = true ∧ p.linked i = true

instance (i a b : Nat) : Decidable (p.MovesOnto i a b) := inferInstanceAs (Decidable (_ ∧ _))

theorem copy_twins_moves (other : a ≠ b) (f : Key) :
    Directory.copy (p.twin i a) f (p.twin i b) f = tryCatch (Directory.linkCopy (p.twin i a) f (p.twin i b) f) fun
      | .fastCopy _ => Directory.byteCopy (p.twin i a) f (p.twin i b) f
      | e => throw e :=
  if_neg fun same => other same.1

theorem copy_twins_stays (other : a ≠ b) (stays : ¬ p.MovesOnto i a b) (f : Key) :
    Directory.copy (p.twin i a) f (p.twin i b) f = Directory.byteCopy (p.twin i a) f (p.twin i b) f := by
  have unfit : ∃ fault, Directory.linkCopy (p.twin i a) f (p.twin i b) f = throw (.fastCopy fault) := by
    refine Directory.linkCopy_unfit (fun fit => stays ⟨fit.1, fit.2.1, ?_⟩) f f
    rw [← isSome_linker_data]
    exact fit.2.2.1
  obtain ⟨fault, unfit⟩ := unfit
  rw [copy_twins_moves other, unfit, tryCatch_throw]

/-! ### Twins opened anew -/

/-- all twins of a directory are opened anew, while the directory keeps what it holds in memory -/
def opened (i : Nat) (s : Site) : Site := { s with catalogs := fun m => if m = i then s.catalogs i else {} }

/-- **After a sync** new twins agree with the directory. -/
theorem twinned_opened (hs : Stocked p.Shown U s F) :
    ∃ r, p.act (.sync i) s = (.ok .done, r) ∧ p.Twinned i U (opened i r) F := by
  obtain ⟨V, shown, keeps⟩ := hs
  obtain ⟨_, r, W, run, ⟨catalogs, names, stands⟩, keeps, clean⟩ := ((directory_laws p i).synced keeps).run shown
  refine ⟨r, by rw [act, map_apply, run], fun m => ?_⟩
  have memory : (opened i r).catalogs m = if m = i then (W i).catalog else {} := by
    rw [opened, catalogs]
    rfl
  have here : Shelf.Keeps { W i with catalog := (opened i r).catalogs m } U (F i) := by
    obtain ⟨lengths, orderly, data⟩ := keeps i
    rw [memory]
    split_ifs
    · exact ⟨lengths, orderly, data⟩
    · exact ⟨lengths.reopened clean, orderly.congr fun _ hk => absurd hk Std.ExtTreeSet.not_mem_empty, data⟩
  have rows (k : Nat) : (seen i m (opened i r).catalogs
      (Function.update W i { W i with catalog := (opened i r).catalogs m }) k) =
        { W k with catalog := (opened i r).catalogs k } := by
    by_cases own : k = i <;> by_cases mine : k = m <;> simp_all [seen]
  refine ⟨Function.update W i { W i with catalog := (opened i r).catalogs m }, ?_, fun k => ?_⟩
  · rw [Sees, funext rows]
    exact ⟨rfl, names, stands⟩
  · have all := keeps_update (i := i) keeps here k
    rwa [Function.update_eq_self] at all

/-- twins opened anew after any run and a sync agree -/
theorem twinned_reached (i : Nat) {steps : List Site.Step} (clean : ∀ o ∈ (p.play steps {}).1, o ≠ .error .tooLarge) :
    ∃ F, p.Twinned i (fun _ => True) (opened i (p.act (.sync i) (p.play steps {}).2).2) F := by
  obtain ⟨F, reached, _⟩ := play_reaches (p.stocked_empty _) (Sound.empty p) clean
  obtain ⟨r, synced, agree⟩ := twinned_opened reached (i := i)
  rw [synced]
  exact ⟨F, agree⟩

/-- **A file copied onto itself** is left alone by one directory, with all other files. Between two directories over the
same stores it loses its bytes: all are zero from then on, and where its row is moved the file is gone from the first of the
two. Take any run on a new site and a sync of directory `i`, whose stores are then opened by other directories as well, and
a copy for which nothing is too large. -/
theorem copied_onto_itself (p : Plan) (i : Nat) (steps : List Site.Step)
    (clean : ∀ o ∈ (p.play steps {}).1, o ≠ .error .tooLarge) {a b : Nat} {f : Key} {bytes : Bytes} :
    let s := opened i (p.act (.sync i) (p.play steps {}).2).2
    (p.twin i a).Holds s f bytes →
    a = b ∨ p.MovesOnto i a b ∨ CopyFits (p.width i) (p.width i) (UInt64.ofNat bytes.length) →
    ∃ r, Directory.copy (p.twin i a) f (p.twin i b) f s = (.ok (), r) ∧
      (a = b → ∀ m g bs, (p.twin i m).Holds s g bs → (p.twin i m).Holds r g bs) ∧
      (a ≠ b → (p.twin i b).Holds r f (Layout.zeros bytes.length) ∧
        if p.MovesOnto i a b then (p.twin i a).Lacks r f else (p.twin i a).Holds r f (Layout.zeros bytes.length)) := by
  intro s holds fits
  obtain ⟨F, agree⟩ := twinned_reached i clean
  have has := (agree.holds_iff a).1 holds
  have size : (UInt64.ofNat bytes.length).toNat = bytes.length := UInt64.toNat_ofNat_of_lt' has.small
  by_cases same : a = b
  · subst same
    obtain ⟨r, asked, agree', _⟩ := agree.length a has.length
    refine ⟨r, ?_, fun _ m g bs kept => ?_, fun other => absurd rfl other⟩
    · rw [Directory.copy, if_pos ⟨rfl, rfl⟩, bind_of_ok asked]
      rfl
    · exact (agree'.holds_iff m).2 ((agree.holds_iff m).1 kept)
  by_cases moves : p.MovesOnto i a b
  · obtain ⟨r, copied, gone, blank⟩ :=
      agree.linkCopy_blanks trivial has.length same moves.1 moves.2.1 moves.2.2
    rw [size] at blank
    refine ⟨r, ?_, fun e => absurd e same, fun _ => ⟨blank, by rwa [if_pos moves]⟩⟩
    rw [copy_twins_moves same, tryCatch_apply, copied]
  · obtain ⟨r, copied, blank, blank'⟩ :=
      agree.byteCopy_blanks trivial has.length same ((fits.resolve_left same).resolve_left moves)
    rw [size] at blank blank'
    refine ⟨r, ?_, fun e => absurd e same, fun _ => ⟨blank', by rwa [if_neg moves]⟩⟩
    rw [copy_twins_stays same moves, copied]

/-- the row is moved: the file is gone from the directory that wrote it, and blank in the other -/
theorem copied_onto_itself_moved :
    let p := simple (fun _ => true) (fun _ => 4) fun _ => Nat.succ_pos 3
    let s := opened 0 (p.act (.sync 0) (p.play [.write 0 "f" [.write [1, 2, 3]]] {}).2).2
    (p.twin 0 0).Holds s "f" [1, 2, 3] ∧ ∃ r, Directory.copy (p.twin 0 0) "f" (p.twin 0 1) "f" s = (.ok (), r) ∧
      (p.twin 0 1).Holds r "f" [0, 0, 0] ∧ (p.twin 0 0).Lacks r "f" := by
  intro p s
  have clean : ∀ o ∈ (p.play [.write 0 "f" [.write [1, 2, 3]]] {}).1, o ≠ .error .tooLarge := by decide +kernel
  have holds : (p.twin 0 0).Holds s "f" [1, 2, 3] := by
    obtain ⟨_, agree⟩ := twinned_reached 0 clean
    exact agree.holds_of_read (by decide) (by decide +kernel) (by decide +kernel)
  obtain ⟨r, copied, _, apart⟩ := copied_onto_itself p 0 _ clean (b := 1) holds (.inr (.inl (by decide)))
  obtain ⟨blank, gone⟩ := apart (by decide)
  exact ⟨holds, r, copied, blank, gone⟩

/-- the bytes are copied: neither directory has them any more -/
theorem copied_onto_itself_lost :
    let p := simple (fun _ => false) (fun _ => 4) fun _ => Nat.succ_pos 3
    let s := opened 0 (p.act (.sync 0) (p.play [.write 0 "f" [.write [1, 2, 3]]] {}).2).2
    let copied := Directory.copy (p.twin 0 0) "f" (p.twin 0 1) "f" s
    (p.twin 0 0).Holds s "f" [1, 2, 3] ∧ (p.twin 0 1).Holds s "f" [1, 2, 3] ∧ copied.1 = .ok () ∧
      ¬ (p.twin 0 0).Holds copied.2 "f" [1, 2, 3] ∧ ¬ (p.twin 0 1).Holds copied.2 "f" [1, 2, 3] := by
  intro p s copied
  have clean : ∀ o ∈ (p.play [.write 0 "f" [.write [1, 2, 3]]] {}).1, o ≠ .error .tooLarge := by decide +kernel
  obtain ⟨_, agree⟩ := twinned_reached 0 clean
  have lost {m : Nat} (zeros : ((p.twin 0 m).withReader "f" (fun r => r.readBytes 0 3) copied.2).1 = .ok [0, 0, 0]) :
      ¬ (p.twin 0 m).Holds copied.2 "f" [1, 2, 3] := by
    intro holds
    have bytes := zeros.symm.trans (holds.reads 0 3 (by decide) (by decide))
    cases bytes
  refine ⟨agree.holds_of_read (by decide) (by decide +kernel) (by decide +kernel),
    agree.holds_of_read (by decide) (by decide +kernel) (by decide +kernel), by decide +kernel,
    lost (by decide +kernel), lost (by decide +kernel)⟩

end Plan

end RowFiles
