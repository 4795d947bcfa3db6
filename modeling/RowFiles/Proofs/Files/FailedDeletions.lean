/-
Deletions of files that fail, and are made again.

A directory that deletes a file removes its row of data, forgets its length in memory, and removes its length row and then
its entry in the listing, if the file is there to begin with: if its length is in memory or it has a length row. Here the
stores of a directory refuse any calls they like, each without effect, so a deletion may break off anywhere.

- `Ways.delete_breaks`: what a deletion leaves, by the call that was refused.
- `Catalog.FrailLaws.take_placed`, `Ways.after_placed`: after any run each entry of the listing stands in the column of the
  file it names, so files can be listed.
- `Ways.failed_deletion_retried`: a deletion that failed and is made again leaves nothing of the file, unless it broke off
  where the file was not there any more but its entry was (`Strands`). Then it finds no file, and the entry stays.
-/
import RowFiles.Files.Directory
import RowFiles.Proofs.Files.FickleCatalogs

namespace RowFiles

open Run

/-! ## Entries in their columns -/

namespace Catalog

/-- no file is called like its length row -/
theorem lengthRow_ne_self (key : Key) : lengthRow key ≠ key := by
  intro same
  have lengths := congrArg (fun s => s.toList.length) same
  simp only [lengthRow_toList, List.length_append] at lengths
  have head : 0 < keyHead.toList.length := by decide
  omega

/-- each entry of the listing stands in the column of the file it names -/
def Placed (t : Table Column) : Prop :=
  ∀ col x, t.get listing col = some x → ∃ key, listingColumn key = col ∧ Utf8.encode (lengthRow key) = x

namespace Placed

variable {t : Table Column} {key : Key}

theorem named (h : Placed t) (x : CatalogState) : Named (fun _ => True) x t where
  dirty _ _ := trivial
  entries col v found := by
    obtain ⟨key, column, entry⟩ := h col v found
    exact ⟨key, trivial, column, entry⟩

theorem put_length (h : Placed t) (key : Key) (x : Bytes) : Placed (t.put (lengthRow key) lengthColumn x) := by
  intro col y found
  rw [Table.get_put, if_neg fun e => lengthRow_ne_listing key e.1] at found
  exact h col y found

theorem persisted (h : Placed t) (key : Key) (n : UInt64) : Placed (persisted t key n) := by
  intro col y found
  rw [get_persisted_listing] at found
  split_ifs at found with here
  · exact ⟨key, here, Option.some.inj found⟩
  · exact h col y found

theorem delete_length (h : Placed t) (key : Key) : Placed (t.delete (lengthRow key)) := by
  intro col y found
  rw [Table.get_delete, if_neg (lengthRow_ne_listing key)] at found
  exact h col y found

theorem forgotten (h : Placed t) (key : Key) : Placed (forgotten t key) := by
  intro col y found
  rw [get_forgotten_listing] at found
  split_ifs at found
  exact h col y found

end Placed

variable {σ ρ : Type} {c : Catalog (Run σ)} {R : σ → Layer CatalogState ρ → Prop} {failing : Call → Prop}

theorem FrailLaws.persistAll_placed (laws : c.FrailLaws R Eq failing) (keys : List Key) (v : Layer CatalogState ρ)
    (h : Placed v.beneath) : Ends R (c.persistAll keys) v fun _ w => Placed w.beneath := by
  induction keys generalizing v with
  | nil => exact ends_pure () h
  | cons key keys ih =>
    refine (laws.read v).next ?_
    cases v.held.lengths[key]? with
    | none => exact ih v h
    | some n =>
      refine Ends.bind (Ends.tryCatch (Ends.mono (laws.persist key n v) fun o w hw => ?_))
      rcases hw with ⟨_, rfl, rfl⟩ | ⟨_, ⟨e, rfl⟩, rfl | rfl⟩
      · exact .inl ⟨(), rfl, .inl ⟨(), rfl, ih _ (h.persisted key n)⟩⟩
      · exact .inr ⟨e, rfl, (laws.modify _ w).step (ends_throw e (.inr ⟨e, rfl, h⟩))⟩
      · exact .inr ⟨e, rfl, (laws.modify _ _).step (ends_throw e (.inr ⟨e, rfl, h.put_length key _⟩))⟩

theorem FrailLaws.flush_placed (laws : c.FrailLaws R Eq failing) {v : Layer CatalogState ρ} (h : Placed v.beneath)
    (clear : Bool) : Ends R (c.flush clear) v fun _ w => Placed w.beneath := by
  refine (laws.read v).next ?_
  refine (laws.write _ _).step ?_
  refine (laws.order _ _).ends ?_
  rintro keys _ ⟨_, rfl⟩
  refine Ends.bind (Ends.mono (laws.persistAll_placed keys _ h) fun o w hw => ?_)
  cases o with
  | error e => exact .inr ⟨e, rfl, hw⟩
  | ok =>
    refine .inl ⟨(), rfl, ?_⟩
    split_ifs
    · refine Ends.mono (laws.modify _ w) ?_
      rintro _ _ ⟨_, _, rfl⟩
      exact hw
    · exact ends_pure () hw

/-- **One step** of a catalog keeps entries in their columns, whatever is refused. -/
theorem FrailLaws.take_placed {toll : σ → Toll} {may : Call → Error → Prop} (laws : c.FrailLaws R Eq failing)
    (blames : c.BlameLaws (Blames toll R) may) {v : Layer CatalogState ρ} (h : Placed v.beneath) (step : Archive.Step) :
    Ends R (c.take step) v fun _ w => Placed w.beneath := by
  cases step with
  | length key =>
    refine Ends.map_answer (Ends.mono (laws.length_told key v) fun o w hw => ?_)
    rcases hw with ⟨_, rfl | ⟨_, _, _, rfl⟩⟩ | ⟨_, _, rfl⟩ <;> exact h
  | has key =>
    refine Ends.map_answer (Ends.mono (laws.has_told key v) fun o w hw => ?_)
    exact hw.2 ▸ h
  | list =>
    refine Ends.map_answer (Ends.mono (laws.keys_keeps v) fun o w hw => ?_)
    exact hw ▸ h
  | setLength key n commit =>
    cases commit with
    | false =>
      refine Ends.map_answer (Ends.mono (laws.setLength_held key n v) fun o w hw => ?_)
      obtain ⟨_, _, rfl⟩ := hw
      exact h
    | true =>
      refine Ends.map_answer (Ends.mono (blames.committed key n v).shown fun o w hw => ?_)
      rcases hw with ⟨_, _, rfl⟩ | ⟨_, _, _, ⟨_, rfl⟩ | ⟨_, rfl⟩⟩
      · exact h.persisted key n
      · exact h
      · exact h.put_length key _
  | delete key =>
    refine Ends.map_answer (Ends.mono (blames.deleted key v).shown fun o w hw => ?_)
    rcases hw with ⟨_, _, rfl⟩ | ⟨_, _, _, ⟨_, rfl⟩ | ⟨_, rfl⟩⟩
    · exact h.forgotten key
    · exact h
    · exact h.delete_length key
  | flush clear => exact Ends.map_answer (laws.flush_placed h clear)
  | reopen =>
    refine Ends.map_answer (Ends.mono (laws.write {} v) ?_)
    rintro _ _ ⟨_, _, rfl⟩
    exact h

end Catalog

/-! ## A directory over stores that refuse calls -/

/-- the stores of a directory, and what it holds in memory -/
structure FickleDirectory where
  catalog : CatalogState := {}
  /-- the rows of data -/
  data : Table Column := .empty
  /-- the lengths and the listing -/
  names : Table Column := .empty
  /-- how often an order has been drawn -/
  drawn : Nat := 0
  toll : Toll := {}

namespace FickleDirectory

inductive Step where
  /-- any call of the data store: what is written, read and locked comes down to these -/
  | data (q : Call)
  | catalog (step : Archive.Step)
  | delete (name : Key)

/-- how a directory works: how wide its rows of data are, and what its stores refuse -/
structure Ways extends Archive.Ways where
  dataWidth : Nat
  settings : DirectorySettings := {}
  whims : Whims

namespace Ways

variable (w : Ways)

/-- a table of the directory as a store that may refuse any call -/
def rows (get : FickleDirectory → Table Column) (set : Table Column → FickleDirectory → FickleDirectory) (width : Nat) :
    Rows (Run FickleDirectory) :=
  w.whims.rows FickleDirectory.toll (fun x d => { d with toll := x }) get set width

def directory : Directory (Run FickleDirectory) where
  identity := 0
  data := { w.rows FickleDirectory.data (fun t d => { d with data := t }) w.dataWidth with }
  catalog :=
    { rows := w.rows FickleDirectory.names (fun t d => { d with names := t }) w.width
      state := Run.part FickleDirectory.catalog fun x d => { d with catalog := x }
      order := fun keys d => (.ok (w.files d.drawn keys), { d with drawn := d.drawn + 1 }) }
  settings := w.settings
  now := pure 0
  order := pure

def act : Step → Run FickleDirectory Unit
  | .data q => do let _ ← w.directory.data.call q
  | .catalog step => do let _ ← w.directory.catalog.take step
  | .delete name => w.directory.delete name

/-- the directory after some steps, whatever each of them answers -/
def after (steps : List Step) (d : FickleDirectory) : FickleDirectory := steps.foldl (fun d step => (w.act step d).2) d

/-- the same directory while nothing is refused -/
def calm : Ways := { w with whims := .calm }

end Ways

/-- what a directory shows of its catalog and its tables -/
def view (d : FickleDirectory) : Layer CatalogState (Table Column) := ⟨d.catalog, d.names, d.data⟩

def Viewed (d : FickleDirectory) (v : Layer CatalogState (Table Column)) : Prop := d.view = v

/-- what a deletion has left once it comes to the length row of the file -/
def emptied (v : Layer CatalogState (Table Column)) (name : Key) : Layer CatalogState (Table Column) :=
  ⟨v.held.forget name, v.beneath, v.rest.delete name⟩

namespace Ways

theorem catalog_seen : Whims.Seen view FickleDirectory.toll (fun x d => { d with toll := x }) FickleDirectory.names
    (fun t d => { d with names := t }) FickleDirectory.catalog fun x d => { d with catalog := x } :=
  ⟨fun _ => rfl, fun _ _ => rfl, fun _ _ => rfl, fun _ _ => rfl, fun _ => rfl, fun _ _ => rfl⟩

theorem catalog_frail (w : Ways) : w.directory.catalog.FrailLaws Viewed Eq w.whims.May :=
  catalog_seen.frail w.whims w.width fun keys v _ hs => ⟨v, hs, _, rfl, w.files_perm _ keys, rfl⟩

theorem catalog_blames (w : Ways) : w.directory.catalog.BlameLaws (Blames FickleDirectory.toll Viewed) w.whims.Gives :=
  catalog_seen.blames w.whims w.width

theorem data_accounts (w : Ways) : w.directory.data.Accounts (Blames FickleDirectory.toll Viewed) w.whims.Gives Layer.rest
    fun t v => { v with rest := t } := by
  apply Whims.rows_account
  · rintro _ _ hs
    exact congrArg Layer.rest hs
  · exact fun _ _ _ hs => hs
  · exact fun _ _ => rfl
  · rintro _ _ t hs
    exact congrArg (fun v : Layer CatalogState (Table Column) => { v with rest := t }) hs

/-- a call of the data store changes nothing but data -/
theorem data_leaves (w : Ways) (q : Call) (v : Layer CatalogState (Table Column)) :
    Ends Viewed (w.directory.data.call q) v fun _ u => ∃ t, u = { v with rest := t } := by
  have sets (d : FickleDirectory) (t u : Table Column) (hs : d.Viewed { v with rest := t }) :
      { d with data := u }.Viewed { v with rest := u } :=
    (congrArg (fun v : Layer CatalogState (Table Column) => { v with rest := u }) hs :)
  have serves : w.directory.data.Serves (fun d t => d.Viewed { v with rest := t }) Eq w.whims.May := by
    apply Whims.rows_serve
    · exact fun _ _ hs => congrArg Layer.rest hs
    · exact fun _ _ _ hs => hs
    · exact sets
  have trims : w.directory.data.Trims (fun d t => d.Viewed { v with rest := t }) w.whims.May := by
    apply Whims.rows_trim
    · exact fun _ _ hs => congrArg Layer.rest hs
    · exact fun _ _ _ hs => hs
    · exact sets
  have lists : w.directory.data.Lists (fun d t => d.Viewed { v with rest := t }) w.whims.May := by
    apply Whims.rows_list
    · exact fun _ _ hs => congrArg Layer.rest hs
    · exact fun _ _ _ hs => hs
  obtain ⟨_, t, _, answered⟩ :=
    (serves.scan_mono fun _ _ same => same ▸ List.Perm.refl _).call_matches trims lists w.dataWidth q v.rest
  intro d shown
  obtain ⟨u, shown', _⟩ := answered d shown
  exact ⟨_, shown', u, rfl⟩

/-- **What a deletion leaves**, by the call that was refused. -/
theorem delete_breaks (w : Ways) (name : Key) (v : Layer CatalogState (Table Column)) :
    Breaks (Blames FickleDirectory.toll Viewed) (w.directory.delete name) v
      (fun _ u => v.has name = true ∧ u = { emptied v name with beneath := Catalog.forgotten v.beneath name })
      fun q e u =>
        (e = .notFound name ∧ v.has name = false ∧ u = v) ∨
        ((Blamed w.whims.Gives (.hasKey (Catalog.lengthRow name)) q e ∨ Blamed w.whims.Gives (.delete name) q e) ∧
          u = v) ∨
        (Blamed w.whims.Gives (.delete (Catalog.lengthRow name)) q e ∧ u = emptied v name) ∨
        Blamed w.whims.Gives (.deleteColumn Catalog.listing (Catalog.listingColumn name)) q e ∧
          u = { emptied v name with beneath := v.beneath.delete (Catalog.lengthRow name) } := by
  refine Breaks.bind (w.catalog_blames.has name v) ?_ fun q e u hu => .inr (.inl ⟨.inl hu.1, hu.2⟩)
  rintro _ u ⟨rfl, same⟩
  rw [same]
  cases there : v.has name with
  | false =>
    refine Breaks.bind (P := fun _ _ => False) ?_ (fun _ _ => False.elim) fun _ _ _ hu => hu
    exact breaks_throw (.inl ⟨rfl, rfl, rfl⟩)
  | true =>
    refine (w.data_accounts.delete name v).next ?_ fun e refused => .inr (.inl ⟨.inr (blamed refused), rfl⟩)
    refine Breaks.mono (w.catalog_blames.deleted name _) (fun _ u hu => ⟨rfl, hu⟩) fun q e u hu => ?_
    exact .inr (.inr hu)

/-! ### Runs -/

/-- **One step** keeps entries in their columns, whatever is refused. -/
theorem act_placed (w : Ways) {v : Layer CatalogState (Table Column)} (h : Catalog.Placed v.beneath) (step : Step) :
    Ends Viewed (w.act step) v fun _ u => Catalog.Placed u.beneath := by
  cases step with
  | data q =>
    refine Ends.then_pure (Ends.mono (w.data_leaves q v) fun o u hu => ?_)
    obtain ⟨_, rfl⟩ := hu
    exact h
  | catalog step => exact Ends.then_pure (w.catalog_frail.take_placed w.catalog_blames h step)
  | delete name =>
    refine Ends.mono (w.delete_breaks name v).shown fun o u hu => ?_
    rcases hu with ⟨_, _, _, rfl⟩ | ⟨_, _, _, ⟨_, _, rfl⟩ | ⟨_, rfl⟩ | ⟨_, rfl⟩ | ⟨_, rfl⟩⟩
    · exact h.forgotten name
    · exact h
    · exact h
    · exact h
    · exact h.delete_length name

theorem after_placed (w : Ways) (steps : List Step) {d : FickleDirectory} (h : Catalog.Placed d.names) :
    Catalog.Placed (w.after steps d).names := by
  induction steps generalizing d with
  | nil => exact h
  | cons step steps ih =>
    obtain ⟨_, rfl, placed⟩ := w.act_placed (v := d.view) h step d rfl
    exact ih placed

/-! ### Deletions made again -/

/-- whether a file is there, if the call is not refused -/
def has (w : Ways) (d : FickleDirectory) (name : Key) : Except Error Bool := (w.calm.directory.has name d).1

/-- the files, if the call is not refused -/
def list (w : Ways) (d : FickleDirectory) : Except Error (List Key) := (w.calm.directory.list d).1

theorem has_eq (w : Ways) (d : FickleDirectory) (name : Key) : w.has d name = .ok (d.view.has name) := by
  obtain ⟨_, _, told | ⟨refusable, _⟩, _⟩ := w.calm.catalog_frail.has_told name d.view d rfl
  · exact told
  · exact absurd refusable (Whims.not_may_calm _)

theorem list_eq (w : Ways) {d : FickleDirectory} (h : Catalog.Placed d.names) :
    ∃ names, w.list d = .ok names ∧ ∀ k, k ∈ names ↔ Catalog.Lists d.catalog d.names k := by
  have never_fails : w.calm.whims.May = never := funext fun q => eq_false (Whims.not_may_calm q)
  have laws : w.calm.directory.catalog.Laws Viewed Eq := (never_fails ▸ w.calm.catalog_frail).laws
  obtain ⟨_, _, names, told, all, _⟩ := laws.keys_named (v := d.view) (h.named d.catalog) d rfl
  exact ⟨names, told, all⟩

/-- what is left by a deletion of which no call is refused -/
theorem calm_delete (w : Ways) (d : FickleDirectory) (name : Key) :
    (d.view.has name = true ∧ (w.calm.directory.delete name d).1 = .ok () ∧
      (w.calm.directory.delete name d).2.view =
        { emptied d.view name with beneath := Catalog.forgotten d.names name }) ∨
    d.view.has name = false ∧ (w.calm.directory.delete name d).1 = .error (.notFound name) ∧
      (w.calm.directory.delete name d).2.view = d.view := by
  have unrefused {c : Call} {q : Option Call} {e : Error} : ¬ Blamed w.calm.whims.Gives c q e :=
    fun h => Whims.not_calm_gives c e h.2
  obtain ⟨_, rfl, ⟨_, ended, there, left⟩ | ⟨q, e, failed, ⟨rfl, absent, left⟩ | broken⟩⟩ :=
    (w.calm.delete_breaks name d.view).shown d rfl
  · exact .inl ⟨there, ended, left⟩
  · exact .inr ⟨absent, failed, left⟩
  · simp [unrefused] at broken

end Ways

section

variable {v : Layer CatalogState (Table Column)} {t : Table Column} {name : Key}

/-- of a file that is emptied nothing is in memory -/
theorem has_emptied : Layer.has { emptied v name with beneath := t } name = t.hasKey (Catalog.lengthRow name) := by
  rw [Layer.has, emptied]
  simp [CatalogState.forget]

theorem lists_emptied : Catalog.Lists (emptied v name).held t name ↔
    t.get Catalog.listing (Catalog.listingColumn name) = some (Utf8.encode (Catalog.lengthRow name)) := by
  rw [Catalog.Lists, emptied]
  simp [CatalogState.forget]

theorem hasKey_forgotten : (Catalog.forgotten t name).hasKey (Catalog.lengthRow name) = false := by
  apply Table.hasKey_eq_false.2
  intro c
  rw [Catalog.get_forgotten, if_pos rfl]

theorem hasKey_delete : (t.delete name).hasKey name = false := by
  apply Table.hasKey_eq_false.2
  intro c
  rw [Table.get_delete, if_pos rfl]

end

/-- a deletion broke off where the file was not there any more, but its entry in the listing may be -/
def Strands (d d' : FickleDirectory) (name : Key) : Prop :=
  d'.toll.refused = some (.deleteColumn Catalog.listing (Catalog.listingColumn name)) ∨
    d'.toll.refused = some (.delete (Catalog.lengthRow name)) ∧ d.names.hasKey (Catalog.lengthRow name) = false

instance (d d' : FickleDirectory) (name : Key) : Decidable (Strands d d' name) := inferInstanceAs (Decidable (_ ∨ _ ∧ _))

/-- the listing has the entry of a file -/
def Entered (d : FickleDirectory) (name : Key) : Prop :=
  d.names.get Catalog.listing (Catalog.listingColumn name) = some (Utf8.encode (Catalog.lengthRow name))

/-- what a deletion comes to that is made again: it finds the file unless it was stranded, and leaves nothing of the file but
its entry in the listing if it was -/
structure Retried (w : Ways) (d d' : FickleDirectory) (name : Key) : Prop where
  ended : (w.calm.directory.delete name d').1 = if Strands d d' name then .error (.notFound name) else .ok ()
  left : ∃ v t, (w.calm.directory.delete name d').2.view = { emptied v name with beneath := t } ∧
    t.hasKey (Catalog.lengthRow name) = false ∧
    (t.get Catalog.listing (Catalog.listingColumn name) = some (Utf8.encode (Catalog.lengthRow name)) ↔
      Strands d d' name ∧ d.Entered name)

namespace Retried

variable {w : Ways} {d d' : FickleDirectory} {name : Key}

/-- what is still there is deleted whole -/
theorem of_there (there : d'.view.has name = true) (free : ¬ Strands d d' name) : Retried w d d' name := by
  rcases w.calm_delete d' name with ⟨_, ended, left⟩ | ⟨absent, _⟩
  · refine ⟨ended.trans (if_neg free).symm, d'.view, Catalog.forgotten d'.names name, left, hasKey_forgotten, ?_⟩
    rw [Catalog.get_forgotten_listing, if_pos rfl]
    exact iff_of_false nofun fun entered => free entered.1
  · exact absurd (there.symm.trans absent) nofun

/-- what is not there is not found, and its entry stays -/
theorem of_stranded {t : Table Column} (shown : d'.view = { emptied d.view name with beneath := t })
    (gone : t.hasKey (Catalog.lengthRow name) = false)
    (same : t.get Catalog.listing (Catalog.listingColumn name) =
      d.names.get Catalog.listing (Catalog.listingColumn name)) (strands : Strands d d' name) : Retried w d d' name := by
  have absent : d'.view.has name = false := by rw [shown, has_emptied, gone]
  rcases w.calm_delete d' name with ⟨there, _⟩ | ⟨_, ended, left⟩
  · exact absurd (there.symm.trans absent) nofun
  · refine ⟨ended.trans (if_pos strands).symm, d.view, t, left.trans shown, gone, ?_⟩
    rw [same]
    exact (and_iff_right strands).symm

/-- **Wherever a deletion of a file broke off**, this is what it comes to. -/
theorem of_failed (there : d.view.has name = true) {e : Error}
    (failed : w.directory.delete name d = (.error e, d')) : Retried w d d' name := by
  have broken := w.delete_breaks name d.view d ⟨rfl, nofun⟩
  rw [failed] at broken
  obtain ⟨_, _, none, _⟩ | ⟨_, q, u, _, ⟨shown, told⟩, left⟩ := broken
  · cases none
  rcases left with ⟨_, absent, _⟩ | ⟨refused, rfl⟩ | ⟨⟨rfl, _⟩, rfl⟩ | ⟨⟨rfl, _⟩, rfl⟩
  · exact absurd (there.symm.trans absent) nofun
  · -- nothing was removed
    rw [← shown] at there
    refine of_there there fun strands => ?_
    rcases refused with ⟨rfl, _⟩ | ⟨rfl, _⟩
    · rw [Strands, told _ rfl] at strands
      simp at strands
    · rw [Strands, told _ rfl] at strands
      simp [(Catalog.lengthRow_ne_self name).symm] at strands
  · -- the row of data was removed, and the file is there still if it has a length row
    by_cases row : d.names.hasKey (Catalog.lengthRow name) = true
    · have still : d'.view.has name = true := by
        rw [shown]
        exact has_emptied.trans row
      refine of_there still fun strands => ?_
      rw [Strands, told _ rfl, row] at strands
      simp at strands
    · have none : d.names.hasKey (Catalog.lengthRow name) = false := Bool.eq_false_iff.2 row
      exact of_stranded shown none rfl (.inr ⟨told _ rfl, none⟩)
  · -- the length row was removed, and with it the file is not there
    refine of_stranded shown hasKey_delete ?_ (.inl (told _ rfl))
    exact (Table.get_delete ..).trans (if_neg (Catalog.lengthRow_ne_listing name))

end Retried

namespace Ways

/-- **A deletion that failed can be made again**, unless it was stranded. Take any run on the stores of a directory, whatever
they refused, a file that is there, and a deletion of it that fails. Made again while nothing is refused, the deletion
leaves the file's row of data empty, and the file is not there. If the failed deletion was refused to remove the entry in
the listing, or to remove the length row of a file that has none, the deletion made again finds no file, and the entry stays
if there is one; otherwise it ends well, and the file is not listed. -/
theorem failed_deletion_retried (w : Ways) (steps : List Step) (name : Key) {e : Error} {d' : FickleDirectory} :
    let d := w.after steps {}
    let r := (w.calm.directory.delete name d').2
    w.has d name = .ok true → w.directory.delete name d = (.error e, d') →
      (w.calm.directory.delete name d').1 = (if Strands d d' name then .error (.notFound name) else .ok ()) ∧
      (∀ c, r.data.get name c = none) ∧ w.has r name = .ok false ∧
        ∃ names, w.list r = .ok names ∧ (name ∈ names ↔ Strands d d' name ∧ d.Entered name) := by
  intro d r exists_ failed
  have there : d.view.has name = true := Except.ok.inj ((w.has_eq d name).symm.trans exists_)
  obtain ⟨ended, v, t, left, gone, entry⟩ := Retried.of_failed there failed
  have placed : Catalog.Placed r.names := by
    have start : Catalog.Placed ({} : FickleDirectory).names := fun col x found => by simp at found
    have broken : Catalog.Placed (w.after [.delete name] d).names := w.after_placed _ (w.after_placed steps start)
    rw [after, List.foldl_cons, List.foldl_nil, act, failed] at broken
    exact w.calm.after_placed [.delete name] broken
  obtain ⟨names, listed, all⟩ := w.list_eq placed
  refine ⟨ended, fun c => ?_, ?_, names, listed, ?_⟩
  · have data : r.data = v.rest.delete name := congrArg Layer.rest left
    rw [data, Table.get_delete, if_pos rfl]
  · rw [w.has_eq, left, has_emptied, gone]
  · have catalog : r.catalog = (emptied v name).held := congrArg Layer.held left
    have rows : r.names = t := congrArg Layer.beneath left
    rw [all, catalog, rows, lists_emptied, entry]

/-- a deletion is refused to remove the length row, which is there: made again it leaves nothing of the file -/
theorem failed_deletion_retried_whole :
    let w : Ways := ⟨⟨64, fun _ => List.reverse, fun _ keys => keys.reverse_perm⟩, 4, {},
      fun n _ => if n = 4 then some (.backend "down") else none⟩
    let d := w.after [.data (.put "f" 0 [1]), .catalog (.setLength "f" 1 true)] {}
    let d' := (w.directory.delete "f" d).2
    let r := (w.calm.directory.delete "f" d').2
    (w.directory.delete "f" d).1 = .error (.backend "down") ∧ d'.names.hasKey (Catalog.lengthRow "f") = true ∧
      (w.calm.directory.delete "f" d').1 = .ok () ∧ r.data.get "f" 0 = none ∧ w.has r "f" = .ok false ∧
      ∃ names, w.list r = .ok names ∧ "f" ∉ names := by
  intro w d d' r
  have there : w.has d "f" = .ok true := by decide +kernel
  have failed : (w.directory.delete "f" d).1 = .error (.backend "down") := by decide +kernel
  have free : ¬ Strands d d' "f" := by decide +kernel
  obtain ⟨ended, data, gone, names, listed, stays⟩ := failed_deletion_retried w
    [.data (.put "f" 0 [1]), .catalog (.setLength "f" 1 true)] "f" there (Prod.ext failed rfl)
  refine ⟨failed, by decide +kernel, ended.trans (if_neg free), data 0, gone, names, listed, fun still => ?_⟩
  exact free (stays.1 still).1

/-- a deletion is refused to remove the entry in the listing: made again it finds no file, and the file is listed -/
theorem failed_deletion_leaves_entry :
    let w : Ways := ⟨⟨64, fun _ => id, fun _ keys => .refl keys⟩, 4, {},
      fun _ q => if q = .deleteColumn Catalog.listing (Catalog.listingColumn "f") then some (.backend "down") else none⟩
    let d := w.after [.data (.put "f" 0 [1]), .catalog (.setLength "f" 1 true)] {}
    let d' := (w.directory.delete "f" d).2
    let r := (w.calm.directory.delete "f" d').2
    w.has d "f" = .ok true ∧ (w.directory.delete "f" d).1 = .error (.backend "down") ∧
      (w.calm.directory.delete "f" d').1 = .error (.notFound "f") ∧ w.has r "f" = .ok false ∧ w.list r = .ok ["f"] := by
  decide +kernel

end Ways

end FickleDirectory

end RowFiles
