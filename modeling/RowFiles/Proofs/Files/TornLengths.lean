/-
Lengths that are held in memory as if they were written.

The table of a fickle archive refuses any calls it likes, each without effect. A length that is to be committed is taken
into memory first. If the table then refuses to write it, the commit fails, but the length stays in memory; and if the file
was not dirty, it is not dirty now. No flush writes such a length, and it is gone once lengths are read from rows again.

- `Ways.act_leaves`: what each step does to a catalog and its table, whatever is refused.
- `Torn`: the last step that made or removed a file was a commit cut short like this, and lengths in memory have not been
  dropped since.
- `Ways.after_sound`: after any run, a length in memory that is not dirty is in its row, unless it is torn.
- `Ways.clean_lengths_are_written`: so flushes and new catalogs change no length that is told but torn ones, and those go
  back to what the row had before the commit.
-/
import RowFiles.Proofs.Files.FickleCatalogs

namespace RowFiles

open Run

structure FickleArchive extends Archive where
  toll : Toll := {}

namespace FickleArchive

open Archive (Step)

/-- how an archive works, and what its table refuses -/
structure Ways extends Archive.Ways where
  whims : Whims

/-- a new catalog over the same table -/
def reopened (g : FickleArchive) : FickleArchive := { g with catalog := {} }

namespace Ways

variable (w : Ways)

def catalog : Catalog (Run FickleArchive) where
  rows := w.whims.rows FickleArchive.toll (fun x g => { g with toll := x }) (fun g => g.table)
    (fun t g => { g with table := t }) w.width
  state := Run.part (fun g => g.catalog) fun x g => { g with catalog := x }
  order keys := fun g => (.ok (w.files g.drawn keys), { g with drawn := g.drawn + 1 })

def act : Step → Run FickleArchive Archive.Answer := w.catalog.take

/-- the archive after some steps, whatever each of them answers -/
def after (steps : List Step) (g : FickleArchive) : FickleArchive := steps.foldl (fun g step => (w.act step g).2) g

/-- the same archive while nothing is refused -/
def calm : Ways := { w with whims := .calm }

/-- the length of a file, if the call is not refused -/
def tells (g : FickleArchive) (key : Key) : Except Error UInt64 := (w.calm.catalog.length key g).1

end Ways

/-! ## What a step leaves -/

/-- what an archive shows of its catalog and its table -/
def view (g : FickleArchive) : Layer CatalogState Unit := ⟨g.catalog, g.table, ()⟩

def Viewed (g : FickleArchive) (v : Layer CatalogState Unit) : Prop := g.view = v

/-- the cell that has the length of a file -/
def cell (g : FickleArchive) (key : Key) : Option Bytes := Catalog.lengthCell g.table key

theorem Viewed.catalog {g : FickleArchive} {v : Layer CatalogState Unit} (shown : g.Viewed v) : g.catalog = v.held :=
  congrArg Layer.held shown

theorem Viewed.cell {g : FickleArchive} {v : Layer CatalogState Unit} (shown : g.Viewed v) (key : Key) :
    g.cell key = Catalog.lengthCell v.beneath key :=
  congrArg (fun v : Layer CatalogState Unit => Catalog.lengthCell v.beneath key) shown

/-- the length of every dirty file is in memory -/
def Kept (g : FickleArchive) : Prop := ∀ key ∈ g.catalog.dirty, ∃ n, g.catalog.lengths[key]? = some n

/-- a commit failed, and the put of the length was refused -/
def CutShort (key : Key) (n : UInt64) (ended : Bool) (g' : FickleArchive) : Prop :=
  ended = false ∧ g'.toll.refused = some (Catalog.lengthPut key n)

/-- what a step leaves, by whether it ended well -/
def Leaves (ended : Bool) (g g' : FickleArchive) : Step → Prop
  | .length key => g'.table = g.table ∧ (g'.catalog = g.catalog ∨ ∃ n, g.catalog.lengths[key]? = none ∧
      Catalog.cellTells key (g.cell key) = .ok n ∧ g'.catalog = g.catalog.fill key n)
  | .has _ | .list => g'.view = g.view
  | .setLength key n false => g'.view = { g.view with held := (g.catalog.setLength key n).markDirty key }
  | .setLength key n true =>
    CutShort key n ended g' ∧ g'.view = { g.view with held := g.catalog.setLength key n } ∨
      ¬ CutShort key n ended g' ∧ (∀ k ≠ key, g'.cell k = g.cell k) ∧ g'.cell key = some (Bytes.ofUInt64 n) ∧
        (g'.catalog = g.catalog.setLength key n ∨ g'.catalog = (g.catalog.setLength key n).clean key)
  | .delete key => g'.catalog = g.catalog.forget key ∧ ∀ k ≠ key, g'.cell k = g.cell k
  | .flush clear => ∃ x, g.view.Saves ⟨x, g'.table, ()⟩ ∧ (ended = true → ∀ key, key ∉ x.dirty) ∧
      g'.catalog = if clear = true ∧ ended = true then x.dropClean else x
  | .reopen => g' = g.reopened

namespace Ways

variable {w : Ways}

theorem catalog_seen : Whims.Seen view FickleArchive.toll (fun x g => { g with toll := x }) (fun g => g.table)
    (fun t g => { g with table := t }) (fun g => g.catalog) fun x g => { g with catalog := x } :=
  ⟨fun _ => rfl, fun _ _ => rfl, fun _ _ => rfl, fun _ _ => rfl, fun _ => rfl, fun _ _ => rfl⟩

theorem catalog_frail (w : Ways) : w.catalog.FrailLaws Viewed Eq w.whims.May :=
  catalog_seen.frail w.whims w.width fun keys v _ hs => ⟨v, hs, _, rfl, w.files_perm _ keys, rfl⟩

theorem catalog_blames (w : Ways) : w.catalog.BlameLaws (Blames FickleArchive.toll Viewed) w.whims.Gives :=
  catalog_seen.blames w.whims w.width

/-- a commit leaves the length in memory; it is cut short if the table refuses to write the length -/
theorem commit_leaves (w : Ways) (g : FickleArchive) (key : Key) (n : UInt64) :
    Leaves (w.catalog.setLength key n true g).1.isOk g (w.catalog.setLength key n true g).2 (.setLength key n true) := by
  rcases w.catalog_blames.committed key n g.view g ⟨rfl, nofun⟩ with
    ⟨_, _, ended, ⟨shown, _⟩, rfl⟩ | ⟨e, _, _, failed, ⟨shown, told⟩, ⟨⟨rfl, _⟩, rfl⟩ | ⟨⟨rfl, _⟩, rfl⟩⟩
  · rw [ended]
    refine .inr ⟨nofun, fun k other => ?_, ?_, .inr shown.catalog⟩
    · exact (shown.cell k).trans ((Catalog.lengthCell_persisted ..).trans (if_neg other.symm))
    · exact (shown.cell key).trans ((Catalog.lengthCell_persisted ..).trans (if_pos rfl))
  · rw [failed]
    exact .inl ⟨⟨rfl, told _ rfl⟩, shown⟩
  · rw [failed]
    refine .inr ⟨fun cut => ?_, fun k other => ?_, ?_, .inl shown.catalog⟩
    · exact Catalog.lengthPut_ne_entryPut key n (Option.some.inj (cut.2.symm.trans (told _ rfl)))
    · exact (shown.cell k).trans ((Catalog.lengthCell_put ..).trans (if_neg other.symm))
    · exact (shown.cell key).trans ((Catalog.lengthCell_put ..).trans (if_pos rfl))

/-- a deletion forgets the file, and changes no other length row -/
theorem deletion_leaves (w : Ways) (g : FickleArchive) (key : Key) :
    Leaves (w.catalog.delete key g).1.isOk g (w.catalog.delete key g).2 (.delete key) := by
  rcases w.catalog_blames.deleted key g.view g ⟨rfl, nofun⟩ with
    ⟨_, _, _, ⟨shown, _⟩, rfl⟩ | ⟨e, _, _, _, ⟨shown, _⟩, ⟨_, rfl⟩ | ⟨_, rfl⟩⟩
  · refine ⟨shown.catalog, fun k other => ?_⟩
    exact (shown.cell k).trans ((Catalog.lengthCell_forgotten ..).trans (if_neg other.symm))
  · exact ⟨shown.catalog, fun k _ => shown.cell k⟩
  · refine ⟨shown.catalog, fun k other => ?_⟩
    exact (shown.cell k).trans ((Catalog.lengthCell_delete ..).trans (if_neg other.symm))

/-- a flush writes lengths of dirty files, and then drops those in memory if it is to clear them -/
theorem flush_leaves (w : Ways) {g : FickleArchive} (kept : g.Kept) (clear : Bool) :
    Leaves (w.catalog.flush clear g).1.isOk g (w.catalog.flush clear g).2 (.flush clear) := by
  have flushed := w.catalog_frail.flush_saves (v := g.view) kept
  cases clear with
  | false =>
    obtain ⟨_, rfl, saves, clean⟩ := flushed g rfl
    exact ⟨_, saves, clean, rfl⟩
  | true =>
    have drops : Ends Viewed (w.catalog.flush true) g.view fun o u => ∃ x, g.view.Saves ⟨x, u.beneath, ()⟩ ∧
        (o.isOk = true → ∀ key, key ∉ x.dirty) ∧ u.held = if o.isOk = true then x.dropClean else x := by
      rw [Catalog.Laws.flush_true]
      refine Ends.bind (Ends.mono flushed fun o u hu => ?_)
      cases o with
      | error e => exact .inr ⟨e, rfl, u.held, hu.1, hu.2, rfl⟩
      | ok =>
        refine .inl ⟨(), rfl, Ends.mono (w.catalog_frail.modify _ u) ?_⟩
        rintro _ _ ⟨_, rfl, rfl⟩
        exact ⟨u.held, hu.1, fun _ => hu.2 rfl, rfl⟩
    obtain ⟨_, rfl, x, saves, clean, held⟩ := drops g rfl
    refine ⟨x, saves, clean, held.trans ?_⟩
    simp only [true_and]

/-- **What a step leaves**, whatever is refused. -/
theorem act_leaves (w : Ways) {g : FickleArchive} (kept : g.Kept) (step : Step) :
    Leaves (w.act step g).1.isOk g (w.act step g).2 step := by
  have laws := w.catalog_frail
  cases step with
  | length key =>
    rw [act, Catalog.take, map_snd]
    obtain ⟨_, shown, left⟩ := laws.length_told key g.view g rfl
    rcases left with ⟨told, rfl | ⟨n, absent, found, rfl⟩⟩ | ⟨_, _, rfl⟩
    · exact ⟨congrArg Layer.beneath shown, .inl shown.catalog⟩
    · refine ⟨congrArg Layer.beneath shown, .inr ⟨n, absent, ?_, shown.catalog⟩⟩
      exact (Catalog.lengthOf_of_none absent).symm.trans (told.symm.trans found)
    · exact ⟨congrArg Layer.beneath shown, .inl shown.catalog⟩
  | has key =>
    rw [act, Catalog.take, map_snd]
    obtain ⟨_, shown, _, rfl⟩ := laws.has_told key g.view g rfl
    exact shown
  | list =>
    rw [act, Catalog.take, map_snd]
    obtain ⟨_, shown, rfl⟩ := laws.keys_keeps g.view g rfl
    exact shown
  | setLength key n commit =>
    rw [act, Catalog.take, map_snd, map_isOk]
    cases commit with
    | false =>
      obtain ⟨_, shown, _, _, rfl⟩ := laws.setLength_held key n g.view g rfl
      exact shown
    | true => exact w.commit_leaves g key n
  | delete key =>
    rw [act, Catalog.take, map_snd, map_isOk]
    exact w.deletion_leaves g key
  | flush clear =>
    rw [act, Catalog.take, map_snd, map_isOk]
    exact w.flush_leaves kept clear
  | reopen => rfl

/-- what is told of a file -/
theorem tells_eq (w : Ways) (g : FickleArchive) (key : Key) : w.tells g key = Catalog.lengthOf g.catalog g.table key := by
  obtain ⟨_, _, ⟨told, _⟩ | ⟨refusable, _⟩⟩ := w.calm.catalog_frail.length_told key g.view g rfl
  · exact told
  · exact absurd refusable (Whims.not_may_calm _)

end Ways

/-! ## One file -/

/-- lengths are read from rows again: memory is cleared, or a new catalog is taken -/
def Renews (step : Step) (ended : Bool) : Prop := step = .reopen ∨ step = .flush true ∧ ended = true

/-- a length in memory that is not dirty is in the file's row -/
def Sound (key : Key) (g : FickleArchive) : Prop :=
  ∀ n, g.catalog.lengths[key]? = some n → key ∉ g.catalog.dirty → Catalog.cellTells key (g.cell key) = .ok n

/-- what a step does to a file that it does not name, while lengths stay in memory -/
inductive Turns (key : Key) (g g' : FickleArchive) : Prop
  | stays (before : key ∉ g.catalog.dirty) (after : key ∉ g'.catalog.dirty)
      (length : g'.catalog.lengths[key]? = g.catalog.lengths[key]?) (cell : g'.cell key = g.cell key)
  | told (n : UInt64) (absent : g.catalog.lengths[key]? = none) (after : key ∉ g'.catalog.dirty)
      (length : g'.catalog.lengths[key]? = some n) (cell : g'.cell key = g.cell key)
      (found : Catalog.cellTells key (g.cell key) = .ok n)
  | dirty (n : UInt64) (before : key ∈ g.catalog.dirty) (held : g.catalog.lengths[key]? = some n)
      (length : g'.catalog.lengths[key]? = some n)
      (saved : key ∉ g'.catalog.dirty → g'.cell key = some (Bytes.ofUInt64 n))

variable {g g' : FickleArchive} {key : Key} {n : UInt64} {ended : Bool} {step : Step}

/-- a file that is as it was -/
theorem Turns.of_same (kept : g.Kept) (dirty : key ∈ g'.catalog.dirty ↔ key ∈ g.catalog.dirty)
    (length : g'.catalog.lengths[key]? = g.catalog.lengths[key]?) (cell : g'.cell key = g.cell key) : Turns key g g' := by
  by_cases before : key ∈ g.catalog.dirty
  · obtain ⟨n, held⟩ := kept key before
    exact .dirty n before held (length.trans held) fun clean => absurd (dirty.2 before) clean
  · exact .stays before (mt dirty.1 before) length cell

/-- a flush writes a dirty length, or leaves it dirty -/
theorem Turns.of_saves (kept : g.Kept) (saves : g.view.Saves g'.view) : Turns key g g' := by
  by_cases before : key ∈ g.catalog.dirty
  · obtain ⟨n, held⟩ := kept key before
    refine .dirty n before held ((congrArg (·[key]?) saves.lengths).trans held) fun clean => ?_
    obtain ⟨m, held', written⟩ := saves.written key before clean
    obtain rfl : n = m := Option.some.inj (held.symm.trans held')
    exact written
  · exact .stays before (mt (saves.fewer key) before) (congrArg (·[key]?) saves.lengths) (saves.others key before)

namespace Leaves

/-- where lengths are read from rows again, none is in memory -/
theorem renewed (left : Leaves ended g g' step) (renews : Renews step ended) (key : Key) :
    g'.catalog.lengths[key]? = none ∧ key ∉ g'.catalog.dirty := by
  rcases renews with rfl | ⟨rfl, rfl⟩
  · obtain rfl : g' = g.reopened := left
    exact ⟨rfl, Std.ExtTreeSet.not_mem_empty⟩
  · obtain ⟨x, _, clean, catalog⟩ := left
    rw [if_pos ⟨rfl, rfl⟩] at catalog
    rw [catalog]
    refine ⟨Option.eq_none_iff_forall_ne_some.2 fun n held => ?_, clean rfl key⟩
    exact clean rfl key ((x.lengths_dropClean key n).1 held).2

/-- a length that is set is in memory. It is dirty, or written, unless it was to be committed and that was cut short. -/
theorem set {commit : Bool} (left : Leaves ended g g' (.setLength key n commit)) :
    g'.catalog.lengths[key]? = some n ∧
      (key ∈ g'.catalog.dirty ∨ g'.cell key = some (Bytes.ofUInt64 n) ∨
        commit = true ∧ CutShort key n ended g' ∧ key ∉ g.catalog.dirty ∧ g'.cell key = g.cell key) ∧
      ∀ k ≠ key, (k ∈ g'.catalog.dirty ↔ k ∈ g.catalog.dirty) ∧
        g'.catalog.lengths[k]? = g.catalog.lengths[k]? ∧ g'.cell k = g.cell k := by
  have here := (g.catalog.lengths_setLength n key).trans (if_pos rfl)
  have others (k : Key) (apart : k ≠ key) := (g.catalog.lengths_setLength n k).trans (if_neg apart.symm)
  cases commit with
  | false =>
    have shown : g'.Viewed { g.view with held := (g.catalog.setLength key n).markDirty key } := left
    rw [shown.catalog]
    refine ⟨here, .inl ?_, fun k apart => ⟨?_, others k apart, shown.cell k⟩⟩
    · exact (g.catalog.mem_dirty_setLength n key).2 (.inl rfl)
    · exact (g.catalog.mem_dirty_setLength n k).trans (or_iff_right apart.symm)
  | true =>
    rcases left with ⟨cut, view⟩ | ⟨_, cells, written, catalog | catalog⟩
    · have shown : g'.Viewed { g.view with held := g.catalog.setLength key n } := view
      rw [shown.catalog]
      refine ⟨here, ?_, fun k apart => ⟨Iff.rfl, others k apart, shown.cell k⟩⟩
      by_cases dirty : key ∈ g.catalog.dirty
      · exact .inl dirty
      · exact .inr (.inr ⟨rfl, cut, dirty, shown.cell key⟩)
    · rw [catalog]
      exact ⟨here, .inr (.inl written), fun k apart => ⟨Iff.rfl, others k apart, cells k apart⟩⟩
    · rw [catalog]
      refine ⟨here, .inr (.inl written), fun k apart => ⟨?_, others k apart, cells k apart⟩⟩
      simp [CatalogState.clean, CatalogState.setLength, apart.symm]

/-- **Other files**: a step leaves them alone, but for lengths that are looked up or written. -/
theorem turns (left : Leaves ended g g' step) (kept : g.Kept) (other : step.file? ≠ some key)
    (stays : ¬ Renews step ended) : Turns key g g' := by
  cases step with
  | length k =>
    obtain ⟨table, same | ⟨n, absent, found, filled⟩⟩ := left
    · exact .of_same kept (by rw [same]) (by rw [same]) (by rw [cell, table, cell])
    · have cells : g'.cell key = g.cell key := by rw [cell, table, cell]
      have dirty : key ∈ g'.catalog.dirty ↔ key ∈ g.catalog.dirty := by
        rw [filled]
        rfl
      have lengths := g.catalog.lengths_fill n absent key
      rw [← filled] at lengths
      split_ifs at lengths with here
      · subst here
        refine .told n absent (fun there => ?_) lengths cells found
        obtain ⟨m, held⟩ := kept k (dirty.1 there)
        exact absurd (held.symm.trans absent) nofun
      · exact .of_same kept dirty lengths cells
  | has | list =>
    have shown : g'.Viewed g.view := left
    exact .of_same kept (by rw [shown.catalog]; rfl) (by rw [shown.catalog]; rfl) (shown.cell key)
  | setLength k n commit =>
    obtain ⟨_, _, others⟩ := left.set
    obtain ⟨dirty, length, cells⟩ := others key fun same => other (congrArg some same.symm)
    exact .of_same kept dirty length cells
  | delete k =>
    have apart : k ≠ key := fun same => other (congrArg some same)
    obtain ⟨catalog, cells⟩ := left
    refine .of_same kept ?_ ?_ (cells key apart.symm)
    · rw [catalog]
      simp [CatalogState.forget, apart]
    · rw [catalog]
      simp [CatalogState.forget, Std.ExtTreeMap.getElem?_erase, apart]
  | flush clear =>
    obtain ⟨x, saves, clean, catalog⟩ := left
    rw [if_neg fun cleared => stays (.inr ⟨congrArg _ cleared.1, cleared.2⟩)] at catalog
    subst catalog
    exact .of_saves kept saves
  | reopen => exact absurd (.inl rfl) stays

/-- a file that is deleted has no length in memory -/
theorem forgotten (left : Leaves ended g g' (.delete key)) : g'.catalog.lengths[key]? = none := by
  rw [left.1]
  simp [CatalogState.forget]

/-- a flush that ends well leaves in each length row the length in memory if it was dirty, and else what was there -/
theorem flushed {clear : Bool} (left : Leaves true g g' (.flush clear)) (key : Key) :
    (key ∈ g.catalog.dirty ∧ ∃ n, g.catalog.lengths[key]? = some n ∧ g'.cell key = some (Bytes.ofUInt64 n)) ∨
      key ∉ g.catalog.dirty ∧ g'.cell key = g.cell key := by
  obtain ⟨x, saves, clean, _⟩ := left
  by_cases dirty : key ∈ g.catalog.dirty
  · exact .inl ⟨dirty, saves.written key dirty (clean rfl key)⟩
  · exact .inr ⟨dirty, saves.others key dirty⟩

end Leaves

namespace Turns

theorem kept (h : Turns key g g') (dirty : key ∈ g'.catalog.dirty) : ∃ n, g'.catalog.lengths[key]? = some n := by
  cases h with
  | stays _ after => exact absurd dirty after
  | told n _ _ length => exact ⟨n, length⟩
  | dirty n _ _ length => exact ⟨n, length⟩

theorem sound (h : Turns key g g') (sound : Sound key g) : Sound key g' := by
  intro n held clean
  cases h with
  | stays before _ length same =>
    rw [same]
    exact sound n (length.symm.trans held) before
  | told m _ _ length same found =>
    obtain rfl : m = n := Option.some.inj (length.symm.trans held)
    rwa [same]
  | dirty m _ _ length saved =>
    obtain rfl : m = n := Option.some.inj (length.symm.trans held)
    rw [saved clean, Catalog.cellTells_ofUInt64]

theorem tells (h : Turns key g g') (w : Ways) : w.tells g' key = w.tells g key := by
  rw [w.tells_eq, w.tells_eq]
  cases h with
  | stays _ _ length same => rw [Catalog.lengthOf, Catalog.lengthOf, length, ← cell, ← cell, same]
  | told n absent _ length _ found =>
    rw [Catalog.lengthOf_of_some length, Catalog.lengthOf_of_none absent]
    exact found.symm
  | dirty n _ held length => rw [Catalog.lengthOf_of_some length, Catalog.lengthOf_of_some held]

end Turns

/-! ## Runs -/

/-- the last step that makes or removes a file is a commit of the length `n` that was cut short while the file was not dirty
and its length row had the cell; lengths have not been read from rows again since -/
inductive Torn (w : Ways) (start : FickleArchive) (key : Key) (n : UInt64) : Option Bytes → List Step → Prop
  | cut {steps : List Step} (clean : key ∉ (w.after steps start).catalog.dirty)
      (short : CutShort key n (w.act (.setLength key n true) (w.after steps start)).1.isOk
        (w.act (.setLength key n true) (w.after steps start)).2) :
      Torn w start key n ((w.after steps start).cell key) (steps ++ [.setLength key n true])
  | stays {cell : Option Bytes} {steps : List Step} {step : Step} (torn : Torn w start key n cell steps)
      (other : step.file? ≠ some key) (held : ¬ Renews step (w.act step (w.after steps start)).1.isOk) :
      Torn w start key n cell (steps ++ [step])

namespace Ways

variable {w : Ways} {start : FickleArchive}

theorem after_snoc (w : Ways) (steps : List Step) (step : Step) (g : FickleArchive) :
    w.after (steps ++ [step]) g = (w.act step (w.after steps g)).2 := by
  rw [after, List.foldl_append]
  rfl

theorem act_kept (w : Ways) (kept : g.Kept) (step : Step) : (w.act step g).2.Kept := by
  have left := w.act_leaves kept step
  intro key dirty
  by_cases renews : Renews step (w.act step g).1.isOk
  · exact absurd dirty (left.renewed renews key).2
  by_cases named : step.file? = some key
  · cases step with
    | setLength k n commit =>
      obtain rfl : k = key := Option.some.inj named
      exact ⟨n, left.set.1⟩
    | delete k =>
      obtain rfl : k = key := Option.some.inj named
      rw [left.1] at dirty
      simp [CatalogState.forget] at dirty
    | length | has | list | flush | reopen => cases named
  · exact (left.turns kept named renews).kept dirty

theorem after_kept (w : Ways) (kept : start.Kept) (steps : List Step) : (w.after steps start).Kept := by
  induction steps generalizing start with
  | nil => exact kept
  | cons step steps ih => exact ih (w.act_kept kept step)

/-- **One step**: a file is sound after it, if it was or the step names it, unless the step is a commit cut short. -/
theorem act_sound (w : Ways) (kept : g.Kept) (step : Step) (key : Key)
    (sound : Sound key g ∨ step.file? = some key ∨ Renews step (w.act step g).1.isOk) :
    Sound key (w.act step g).2 ∨
      ∃ n, step = .setLength key n true ∧ key ∉ g.catalog.dirty ∧ CutShort key n (w.act step g).1.isOk (w.act step g).2 := by
  have left := w.act_leaves kept step
  by_cases renews : Renews step (w.act step g).1.isOk
  · exact .inl fun n held => absurd ((left.renewed renews key).1.symm.trans held) nofun
  by_cases named : step.file? = some key
  · cases step with
    | setLength k n commit =>
      obtain rfl : k = key := Option.some.inj named
      obtain ⟨length, dirty | written | ⟨rfl, cut, clean, _⟩, _⟩ := left.set
      · exact .inl fun _ _ clean => absurd dirty clean
      · refine .inl fun m held _ => ?_
        obtain rfl : n = m := Option.some.inj (length.symm.trans held)
        rw [written, Catalog.cellTells_ofUInt64]
      · exact .inr ⟨n, rfl, clean, cut⟩
    | delete k =>
      obtain rfl : k = key := Option.some.inj named
      exact .inl fun n held => absurd (left.forgotten.symm.trans held) nofun
    | length | has | list | flush | reopen => cases named
  · have before := sound.resolve_right (not_or.2 ⟨named, renews⟩)
    exact .inl ((left.turns kept named renews).sound before)

/-- **A run** leaves every file sound that is not torn. -/
theorem after_sound (w : Ways) (kept : start.Kept) {key : Key} (sound : Sound key start) (steps : List Step) :
    Sound key (w.after steps start) ∨ ∃ n cell, Torn w start key n cell steps := by
  induction steps using List.reverseRecOn with
  | nil => exact .inl sound
  | append_singleton steps step ih =>
    rw [after_snoc]
    by_cases known : Sound key (w.after steps start) ∨ step.file? = some key ∨
        Renews step (w.act step (w.after steps start)).1.isOk
    · rcases w.act_sound (w.after_kept kept steps) step key known with after | ⟨n, rfl, clean, short⟩
      · exact .inl after
      · exact .inr ⟨n, _, .cut clean short⟩
    · obtain ⟨unsound, other, held⟩ : _ ∧ _ ∧ _ := ⟨fun h => known (.inl h), fun h => known (.inr (.inl h)),
        fun h => known (.inr (.inr h))⟩
      obtain ⟨n, cell, torn⟩ := ih.resolve_left unsound
      exact .inr ⟨n, cell, torn.stays other held⟩

end Ways

/-- a torn length is in memory and not dirty, and the file's length row is as before the commit -/
theorem Torn.holds {w : Ways} {start : FickleArchive} {cell : Option Bytes} {steps : List Step} (kept : start.Kept)
    (torn : Torn w start key n cell steps) :
    (w.after steps start).catalog.lengths[key]? = some n ∧ key ∉ (w.after steps start).catalog.dirty ∧
      (w.after steps start).cell key = cell := by
  induction torn with
  | @cut steps clean short =>
    rw [w.after_snoc]
    have left := w.act_leaves (w.after_kept kept steps) (.setLength key n true)
    rcases left with ⟨_, view⟩ | ⟨whole, _⟩
    · have shown : (w.act (.setLength key n true) (w.after steps start)).2.Viewed
          { (w.after steps start).view with held := (w.after steps start).catalog.setLength key n } := view
      rw [shown.catalog]
      exact ⟨((w.after steps start).catalog.lengths_setLength n key).trans (if_pos rfl), clean, shown.cell key⟩
    · exact absurd short whole
  | @stays cell steps step _ other held ih =>
    rw [w.after_snoc]
    obtain ⟨length, clean, same⟩ := ih
    have turned := (w.act_leaves (w.after_kept kept steps) step).turns (w.after_kept kept steps) other held
    cases turned with
    | stays _ after length' same' => exact ⟨length'.trans length, after, same'.trans same⟩
    | told m absent => exact absurd (absent.symm.trans length) nofun
    | dirty _ before => exact absurd before clean

namespace Ways

variable {w : Ways}

/-- once lengths are read from rows again, the file's row tells its length -/
theorem tells_of_none (w : Ways) (none : g.catalog.lengths[key]? = none) :
    w.tells g key = Catalog.cellTells key (g.cell key) := by
  rw [w.tells_eq, Catalog.lengthOf_of_none none, cell]

/-- what a row tells once a flush has ended well -/
theorem cellTells_flushed (w : Ways) (sound : Sound key g) {clear : Bool}
    (left : Leaves true g g' (.flush clear)) : Catalog.cellTells key (g'.cell key) = w.tells g key := by
  rcases left.flushed key with ⟨_, n, held, written⟩ | ⟨clean, same⟩
  · rw [written, Catalog.cellTells_ofUInt64, w.tells_eq, Catalog.lengthOf_of_some held]
  · rw [same]
    cases held : g.catalog.lengths[key]? with
    | none => exact (w.tells_of_none held).symm
    | some n =>
      rw [w.tells_eq, Catalog.lengthOf_of_some held]
      exact sound n held clean

theorem flush_ended (w : Ways) (kept : g.Kept) {clear : Bool} (ran : w.act (.flush clear) g = (.ok .done, g')) :
    Leaves true g g' (.flush clear) := by
  have left := w.act_leaves kept (.flush clear)
  rwa [ran] at left

/-- a flush that ends well does not write the length of a clean file: its row tells what it told -/
theorem tells_flushed_clean (w : Ways) (kept : g.Kept) (clean : key ∉ g.catalog.dirty) {clear : Bool}
    (ran : w.act (.flush clear) g = (.ok .done, g')) :
    w.tells g'.reopened key = Catalog.cellTells key (g.cell key) ∧
      (clear = true → w.tells g' key = Catalog.cellTells key (g.cell key)) := by
  have left := w.flush_ended kept ran
  have unwritten : g'.cell key = g.cell key := by
    rcases left.flushed key with ⟨dirty, _⟩ | ⟨_, same⟩
    · exact absurd dirty clean
    · exact same
  rw [← unwritten]
  refine ⟨w.tells_of_none rfl, ?_⟩
  rintro rfl
  exact w.tells_of_none (left.renewed (.inr ⟨rfl, rfl⟩) key).1

/-- no step changes the length of a sound file that it does not name -/
theorem tells_act (w : Ways) (kept : g.Kept) (sound : Sound key g) (other : step.file? ≠ some key)
    (stays_open : step ≠ .reopen) : w.tells (w.act step g).2 key = w.tells g key := by
  have left := w.act_leaves kept step
  by_cases renews : Renews step (w.act step g).1.isOk
  · obtain ⟨rfl, ended⟩ := renews.resolve_left stays_open
    rw [w.tells_of_none (left.renewed renews key).1]
    rw [ended] at left
    exact w.cellTells_flushed sound left
  · exact (left.turns kept other renews).tells w

/-- **A clean length is a written one**, unless a commit of it was cut short. Take any run of a catalog over any table that
refuses what it likes. If the last step that made or removed a file was a commit whose length could not be written while the
file was not dirty, the length is in memory and not dirty, no flush writes it, and once lengths are read from rows again the
file has what its row had before. Otherwise a length in memory that is not dirty is in its row, no step changes the length
of a file that it does not name, and neither does a new catalog once a flush has ended well. -/
theorem clean_lengths_are_written (w : Ways) (t : Table Column) (steps : List Step) (key : Key) :
    let start : FickleArchive := { table := t }
    let g := w.after steps start
    (∀ n cell, Torn w start key n cell steps →
      w.tells g key = .ok n ∧ key ∉ g.catalog.dirty ∧ g.cell key = cell ∧
        ∀ clear g', w.act (.flush clear) g = (.ok .done, g') →
          w.tells g'.reopened key = Catalog.cellTells key cell ∧
            (clear = true → w.tells g' key = Catalog.cellTells key cell)) ∧
    ((∀ n cell, ¬ Torn w start key n cell steps) →
      (∀ n, g.catalog.lengths[key]? = some n → key ∉ g.catalog.dirty → Catalog.cellTells key (g.cell key) = .ok n) ∧
      (∀ step, step.file? ≠ some key → step ≠ .reopen → w.tells (w.act step g).2 key = w.tells g key) ∧
        ∀ clear g', w.act (.flush clear) g = (.ok .done, g') → w.tells g'.reopened key = w.tells g key) := by
  intro start g
  have start_kept : start.Kept := fun _ dirty => absurd dirty Std.ExtTreeSet.not_mem_empty
  have kept : g.Kept := w.after_kept start_kept steps
  constructor
  · intro n cell torn
    obtain ⟨held, clean, rfl⟩ := torn.holds start_kept
    refine ⟨?_, clean, rfl, fun clear g' ran => w.tells_flushed_clean kept clean ran⟩
    exact (w.tells_eq g key).trans (Catalog.lengthOf_of_some held)
  · intro whole
    have start_sound : Sound key start := fun n held => by simp [start] at held
    have sound : Sound key g := (w.after_sound start_kept start_sound steps).resolve_right fun ⟨n, cell, torn⟩ =>
      whole n cell torn
    refine ⟨sound, fun step other stays_open => w.tells_act kept sound other stays_open, fun clear g' ran => ?_⟩
    calc w.tells g'.reopened key = Catalog.cellTells key (g'.cell key) := w.tells_of_none rfl
      _ = w.tells g key := w.cellTells_flushed sound (w.flush_ended kept ran)

/-- the commit of a second length of `a` is cut short, and goes back to the first one; `b`, which is dirty, is written -/
theorem clean_lengths_are_written_twice :
    let whims : Whims := fun n _ => if n = 2 then some (.backend "down") else none
    let w : Ways := ⟨⟨64, fun _ => List.reverse, fun _ keys => keys.reverse_perm⟩, whims⟩
    let steps : List Step := [.setLength "a" 1 true, .setLength "a" 2 true, .setLength "b" 3 false]
    let g := w.after steps { table := .empty }
    let g' := (w.act (.flush true) g).2
    (w.act (.flush true) g).1 = .ok .done ∧ w.tells g "a" = .ok 2 ∧ w.tells g' "a" = .ok 1 ∧
      w.tells g "b" = .ok 3 ∧ w.tells g' "b" = .ok 3 := by
  intro whims w steps g g'
  have ended : (w.act (.flush true) g).1 = .ok .done := by decide +kernel
  obtain ⟨lost, _⟩ := clean_lengths_are_written w .empty steps "a"
  obtain ⟨_, kept⟩ := clean_lengths_are_written w .empty steps "b"
  have cut : Torn w { table := .empty } "a" 2 ((w.after [.setLength "a" 1 true] { table := .empty }).cell "a")
      ([.setLength "a" 1 true] ++ [.setLength "a" 2 true]) := by
    apply Torn.cut
    · decide +kernel
    · constructor
      · decide +kernel
      · decide +kernel
  have torn : Torn w { table := .empty } "a" 2 ((w.after [.setLength "a" 1 true] { table := .empty }).cell "a")
      ([.setLength "a" 1 true] ++ [.setLength "a" 2 true] ++ [.setLength "b" 3 false]) := by
    apply cut.stays
    · nofun
    · rintro (same | ⟨same, _⟩) <;> cases same
  have whole : ∀ n cell, ¬ Torn w { table := .empty } "b" n cell steps := by
    intro n cell torn
    obtain ⟨_, clean, _⟩ := torn.holds fun _ dirty => absurd dirty Std.ExtTreeSet.not_mem_empty
    exact clean (by decide +kernel)
  obtain ⟨told, _, _, flushed⟩ := lost 2 _ torn
  obtain ⟨_, goes⟩ := flushed true g' (Prod.ext ended rfl)
  obtain ⟨_, stays, _⟩ := kept whole
  have before : w.tells g "b" = .ok 3 := by decide +kernel
  exact ⟨ended, told, (goes rfl).trans (by decide +kernel), before, (stays (.flush true) nofun nofun).trans before⟩

/-- a commit is refused on an empty table: the length is told and is not dirty, a flush ends well, and the file is gone -/
theorem clean_length_is_lost :
    let w : Ways := ⟨⟨64, fun _ => id, fun _ keys => .refl keys⟩, fun n _ => if n = 0 then some (.backend "down") else none⟩
    let g := w.after [.setLength "a" 1 true] { table := .empty }
    w.tells g "a" = .ok 1 ∧ g.catalog.dirty.toList = [] ∧ g.cell "a" = none ∧
      (w.act (.flush true) g).1 = .ok .done ∧ w.tells (w.act (.flush true) g).2 "a" = .error (.notFound "a") := by
  decide +kernel

end Ways

end FickleArchive

end RowFiles
