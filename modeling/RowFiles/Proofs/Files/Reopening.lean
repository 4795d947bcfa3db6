/-
Catalogs that are opened again over the rows of an earlier one.

An archive is a table and a catalog over it. A run on it sets lengths, committed or not, asks for lengths, deletes and
lists files, flushes, and goes on with a new catalog over the same table. Two maps of lengths tell all of this
(`Ledger`): the lengths that the catalog shows, and those that are written, which a new catalog would show.

- `Catalog.Laws.flush_written`: after a flush the two are the same.
- `act_expected`, `play_expected`: every step answers from the ledger and changes it as `Archive.Step.expect` says.
- `lengths_told`: where a new catalog is taken only once every length is written, a run answers from one map, which takes
  every length set and loses every file deleted; and after a flush the table alone decides all answers to come.
-/
import Mathlib.Data.List.Induction
import RowFiles.Proofs.Files.Listings

namespace RowFiles

open Run

/-! ## What a flush leaves -/

/-- the lengths that stay in memory are those of dirty files -/
theorem CatalogState.lengths_dropClean (x : CatalogState) (key : Key) (n : UInt64) :
    x.dropClean.lengths[key]? = some n ↔ x.lengths[key]? = some n ∧ key ∈ x.dirty := by
  simp only [dropClean, Std.ExtTreeMap.getElem?_filter', Option.filter_eq_some_iff]
  simp

namespace Catalog

variable {S : Key → Prop} {L : Key → Option UInt64} {owed : List Key} {x : CatalogState} {t : Table Column}

/-- lengths that are written need not be held in memory -/
theorem Coherent.dropClean (h : Coherent S L owed x t) (paid : ∀ key, S key → key ∈ owed → key ∈ x.dirty) :
    Coherent S L owed x.dropClean t := by
  refine ⟨fun key hs hk => ?_, fun key n hs hk => h.shadow key n hs ((x.lengths_dropClean key n).1 hk).1, h.clean⟩
  have dirty : key ∈ x.dirty := by
    rcases hk with dirty | owes
    · exact dirty
    · exact paid key hs owes
  obtain ⟨n, held⟩ := h.kept key hs (.inl dirty)
  exact ⟨n, (x.lengths_dropClean key n).2 ⟨held, dirty⟩⟩

/-- where no length is dirty, a new catalog knows as much -/
theorem Coherent.reopened (h : Coherent S L [] x t) (written : ∀ key, key ∉ x.dirty) : Coherent S L [] {} t := by
  refine ⟨fun key _ hk => ?_, fun key n _ hk => ?_, fun key hs _ _ => h.get_of_clean hs written⟩
  · rcases hk with hk | hk
    · exact absurd hk Std.ExtTreeSet.not_mem_empty
    · exact absurd hk List.not_mem_nil
  · simp at hk

end Catalog

namespace Layer.Indexes

variable {ρ : Type} {v : Layer CatalogState ρ} {U : Key → Prop} {m : Catalog.Index} {r : ρ}

/-- where no length is dirty, a new catalog over the same rows stands for the same lengths -/
theorem reopened (h : v.Indexes U m r) (written : ∀ key, key ∉ v.held.dirty) :
    Layer.Indexes { v with held := {} } U m r :=
  ⟨⟨h.records.coherent.reopened written, h.records.rest⟩,
    h.orderly.congr fun _ hk => absurd hk Std.ExtTreeSet.not_mem_empty⟩

/-- nothing is there where nothing has been written -/
theorem empty (U : Key → Prop) (r : ρ) : Layer.Indexes ⟨{}, .empty, r⟩ U ∅ r := by
  refine ⟨⟨⟨fun key _ hk => ?_, fun key n _ hk => ?_, fun key _ _ _ => ?_⟩, rfl⟩, fun key hk => ?_, fun key col v hk => ?_,
    fun _ col v => ?_⟩
  · rcases hk with hk | hk
    · exact absurd hk Std.ExtTreeSet.not_mem_empty
    · exact absurd hk List.not_mem_nil
  all_goals simp_all

end Layer.Indexes

namespace Catalog.Laws

variable {σ ρ : Type} {c : Catalog (Run σ)} {R : σ → Layer CatalogState ρ → Prop} {scan : List Bytes → List Bytes → Prop}
  {U : Key → Prop} {m : Catalog.Index} {r : ρ} {v : Layer CatalogState ρ}

/-- a flush that clears is one that does not, and then drops what is held -/
theorem flush_true : c.flush true = (do c.flush false; c.state.modify (·.dropClean)) := by
  simp [Catalog.flush]

/-- after a flush no length is dirty, whether or not memory is cleared -/
theorem flush_written (laws : c.Laws R scan) (h : v.Indexes U m r) (clear : Bool) :
    Yields R (c.flush clear) v fun _ w => w.Indexes U m r ∧ ∀ key, key ∉ w.held.dirty := by
  cases clear with
  | false => exact laws.flushed h
  | true =>
    rw [flush_true]
    refine (laws.flushed h).bind ?_
    intro _ w hw
    obtain ⟨indexes, clean⟩ := hw
    refine (laws.modify _ w).mono ?_
    intro _ _ hw
    subst hw
    refine ⟨⟨⟨indexes.records.coherent.dropClean fun _ _ owes => ?_, indexes.records.rest⟩,
      indexes.orderly.congr fun _ => id⟩, clean⟩
    exact absurd owes List.not_mem_nil

end Catalog.Laws

/-! ## An archive and its steps -/

/-- a catalog over a table -/
structure Archive where
  table : Table Column := .empty
  catalog : CatalogState := {}
  /-- how often an order has been drawn -/
  drawn : Nat := 0

/-- how an archive works: how wide its table is, and the orders in which it writes files -/
structure Archive.Ways where
  width : Nat
  /-- the order drawn at the `n`th time for some files -/
  files : Nat → List Key → List Key
  files_perm : ∀ n keys, (files n keys).Perm keys

namespace Archive

inductive Step where
  | length (key : Key)
  | has (key : Key)
  | list
  | setLength (key : Key) (length : UInt64) (commit : Bool)
  | delete (key : Key)
  | flush (clear : Bool)
  /-- takes a new catalog over the same table -/
  | reopen

inductive Answer where
  | done
  | length (n : UInt64)
  | flag (yes : Bool)
  | names (list : List Key)
deriving DecidableEq, Repr

/-- the file that a step makes or removes -/
def Step.file? : Step → Option Key
  | .setLength key _ _ | .delete key => some key
  | .length _ | .has _ | .list | .flush _ | .reopen => none

/-- the files that steps make or remove -/
def InUse (steps : List Step) (key : Key) : Prop := ∃ step ∈ steps, step.file? = some key

/-- a new catalog over the same table -/
def reopened (g : Archive) : Archive := { g with catalog := {} }

namespace Ways

variable (w : Ways)

def catalog : Catalog (Run Archive) where
  rows := Table.rows (Run.part Archive.table fun t g => { g with table := t }) w.width
  state := Run.part Archive.catalog fun x g => { g with catalog := x }
  order keys := fun g => (.ok (w.files g.drawn keys), { g with drawn := g.drawn + 1 })

def act : Step → Run Archive Answer
  | .length key => .length <$> w.catalog.length key
  | .has key => .flag <$> w.catalog.has key
  | .list => .names <$> w.catalog.keys
  | .setLength key length commit => (fun _ => .done) <$> w.catalog.setLength key length commit
  | .delete key => (fun _ => .done) <$> w.catalog.delete key
  | .flush clear => (fun _ => .done) <$> w.catalog.flush clear
  | .reopen => fun g => (.ok .done, g.reopened)

/-- the outcomes of steps one after another, and the archive that they leave -/
def play : List Step → Archive → List (Except Error Answer) × Archive
  | [], g => ([], g)
  | step :: rest, g =>
    let (o, g) := w.act step g
    let (os, g) := play rest g
    (o :: os, g)

end Ways

/-! ## What steps come to -/

/-- the lengths that a catalog shows, and those that a new one over the same rows would -/
structure Ledger where
  shown : Catalog.Index := ∅
  written : Catalog.Index := ∅

/-- the answer of a step, where the lengths are those of a map -/
def Step.answer (m : Catalog.Index) : Step → Except Error Answer
  | .length key => .length <$> m.find key
  | .has key => .ok (.flag (m.find key).isOk)
  | .list => .ok (.names m.keys)
  | .setLength .. | .delete _ | .flush _ | .reopen => .ok .done

/-- the ledger after a step -/
def Ledger.enter (b : Ledger) : Step → Ledger
  | .setLength key n false => { b with shown := b.shown.insert key n }
  | .setLength key n true => ⟨b.shown.insert key n, b.written.insert key n⟩
  | .delete key => ⟨b.shown.erase key, b.written.erase key⟩
  | .flush _ => ⟨b.shown, b.shown⟩
  | .reopen => ⟨b.written, b.written⟩
  | .length _ | .has _ | .list => b

/-- what steps come to one after another -/
def Ledger.outcomes : Ledger → List Step → List (Except Error Answer)
  | _, [] => []
  | b, step :: rest => step.answer b.shown :: Ledger.outcomes (b.enter step) rest

/-- an archive is in order for the files in use, and its ledger is `b` -/
structure Tells (U : Key → Prop) (b : Ledger) (v : Layer CatalogState Unit) : Prop where
  shown : v.Indexes U b.shown ()
  written : Layer.Indexes { v with held := {} } U b.written ()

def Shows (g : Archive) (v : Layer CatalogState Unit) : Prop := g.catalog = v.held ∧ g.table = v.beneath

variable {U : Key → Prop} {b : Ledger} {v : Layer CatalogState Unit}

theorem Tells.empty (U : Key → Prop) : Tells U {} ⟨{}, .empty, ()⟩ := ⟨.empty U (), .empty U ()⟩

theorem Tells.reopened (h : Tells U b v) : Tells U ⟨b.written, b.written⟩ { v with held := {} } := ⟨h.written, h.written⟩

theorem isOk_find (m : Catalog.Index) (key : Key) : (m.find key).isOk = decide (key ∈ m) := by
  rw [Catalog.Index.find, Bool.eq_iff_iff, decide_eq_true_iff, Std.ExtTreeMap.mem_iff_isSome_getElem?]
  cases m[key]? with
  | none => simp [Except.isOk, Except.toBool]
  | some n => simp [Except.isOk, Except.toBool]

namespace Ways

theorem catalog_laws (w : Ways) : w.catalog.Laws Shows Eq where
  inner _ _ := Table.rows_serve (fun _ _ hs => hs.2) (fun _ _ _ hs => ⟨hs.1, rfl⟩) w.width never
  read v _ hs := ⟨v, hs, _, rfl, hs.1, rfl⟩
  write x v _ hs := ⟨{ v with held := x }, ⟨rfl, hs.2⟩, (), rfl, rfl⟩
  order keys v _ hs := ⟨v, hs, _, rfl, w.files_perm _ keys, rfl⟩

theorem catalog_trims (w : Ways) (x : CatalogState) (r : Unit) : w.catalog.rows.Trims (fun g t => Shows g ⟨x, t, r⟩) never :=
  Table.rows_trim (fun _ _ hs => hs.2) (fun _ _ _ hs => ⟨hs.1, rfl⟩) w.width never

/-- a step answers from the ledger, and changes it as expected; files are listed if no two in use share a column -/
theorem act_expected (w : Ways) (apart : Catalog.Apart U) (h : Tells U b v) (step : Step)
    (used : ∀ key, step.file? = some key → U key) :
    Ends Shows (w.act step) v fun o u => o = step.answer b.shown ∧ Tells U (b.enter step) u := by
  have laws := w.catalog_laws
  cases step with
  | length key =>
    refine Ends.map (Ends.mono (laws.find_held h.shown key) fun o u hu => ?_)
    obtain ⟨⟨shown, beneath⟩, rfl⟩ := hu
    refine ⟨rfl, shown, ?_⟩
    rw [beneath]
    exact h.written
  | has key =>
    refine Ends.map (Ends.mono (laws.has h.shown key) fun o u hu => ?_)
    obtain ⟨_, rfl, rfl, rfl⟩ := hu
    refine ⟨?_, h⟩
    rw [Step.answer, isOk_find]
    rfl
  | list =>
    refine Ends.map (Ends.mono (laws.keys apart h.shown) fun o u hu => ?_)
    obtain ⟨_, rfl, rfl, rfl⟩ := hu
    exact ⟨rfl, h⟩
  | setLength key n commit =>
    cases commit with
    | false =>
      refine Ends.map (Ends.mono (laws.setLength_held key n v) fun o u hu => ?_)
      obtain ⟨_, rfl, rfl⟩ := hu
      exact ⟨rfl, h.shown.set (used key rfl) n, h.written⟩
    | true =>
      refine Ends.map (Ends.mono (laws.setLength_written key n v) fun o u hu => ?_)
      obtain ⟨_, rfl, rfl⟩ := hu
      have alone := (h.written.persisted (used key rfl) n).reopened fun k hk => by
        simp [CatalogState.setLength, CatalogState.clean] at hk
      exact ⟨rfl, h.shown.persisted (used key rfl) n, alone⟩
  | delete key =>
    refine Ends.map (Ends.mono (laws.delete_forgotten w.catalog_trims key v) fun o u hu => ?_)
    obtain ⟨_, rfl, rfl⟩ := hu
    have alone := (h.written.forgotten (used key rfl)).reopened fun k hk => by simp [CatalogState.forget] at hk
    exact ⟨rfl, h.shown.forgotten (used key rfl), alone⟩
  | flush clear =>
    refine Ends.map (Ends.mono (laws.flush_written h.shown clear) fun o u hu => ?_)
    obtain ⟨_, rfl, shown, clean⟩ := hu
    exact ⟨rfl, shown, shown.reopened clean⟩
  | reopen =>
    intro g hs
    exact ⟨{ v with held := {} }, ⟨rfl, hs.2⟩, rfl, h.reopened⟩

/-- a run has the outcomes that its ledger tells -/
theorem play_expected (w : Ways) (apart : Catalog.Apart U) (steps : List Step) (used : ∀ key, InUse steps key → U key)
    {g : Archive} {b : Ledger} {v : Layer CatalogState Unit} (hs : Shows g v) (h : Tells U b v) :
    (w.play steps g).1 = b.outcomes steps ∧ ∃ u, Shows (w.play steps g).2 u ∧ Tells U (steps.foldl Ledger.enter b) u := by
  induction steps generalizing g b v with
  | nil => exact ⟨rfl, v, hs, h⟩
  | cons step steps ih =>
    obtain ⟨u, hu, answered, tells⟩ :=
      act_expected w apart h step (fun key e => used key ⟨step, List.mem_cons_self, e⟩) g hs
    obtain ⟨outcomes, later⟩ :=
      ih (fun key ⟨s, here, e⟩ => used key ⟨s, List.mem_cons_of_mem step here, e⟩) hu tells
    exact ⟨congrArg₂ List.cons answered outcomes, later⟩

end Ways

/-! ## One map of lengths -/

/-- the lengths after a step, if every length set is taken and every file deleted is lost -/
def Step.tell (m : Catalog.Index) : Step → Catalog.Index
  | .setLength key n _ => m.insert key n
  | .delete key => m.erase key
  | .length _ | .has _ | .list | .flush _ | .reopen => m

/-- the lengths after steps from nothing -/
def told (steps : List Step) : Catalog.Index := steps.foldl Step.tell ∅

/-- what steps answer one after another, where the lengths are those of one map -/
def answers : Catalog.Index → List Step → List (Except Error Answer)
  | _, [] => []
  | m, step :: rest => step.answer m :: answers (step.tell m) rest

/-- the last step that makes or removes a file sets its length to `n` -/
def LastSet (key : Key) (n : UInt64) (steps : List Step) : Prop :=
  ∃ before commit after, steps = before ++ .setLength key n commit :: after ∧ ∀ step ∈ after, step.file? ≠ some key

/-- a new catalog is taken only where every length is written: none was set since the last flush without committing it -/
def Settled : Bool → List Step → Prop
  | _, [] => True
  | _, .flush _ :: rest => Settled true rest
  | _, .setLength _ _ false :: rest => Settled false rest
  | written, .reopen :: rest => written = true ∧ Settled true rest
  | written, .length _ :: rest | written, .has _ :: rest | written, .list :: rest | written, .delete _ :: rest
  | written, .setLength _ _ true :: rest => Settled written rest

theorem lastSet_snoc {key : Key} {n : UInt64} {steps : List Step} {step : Step} :
    LastSet key n (steps ++ [step]) ↔
      (∃ commit, step = .setLength key n commit) ∨ step.file? ≠ some key ∧ LastSet key n steps := by
  constructor
  · rintro ⟨before, commit, after, same, others⟩
    rcases after.eq_nil_or_concat with rfl | ⟨after, last, rfl⟩
    · obtain ⟨_, e⟩ := List.append_inj' same rfl
      exact .inl ⟨commit, List.head_eq_of_cons_eq e⟩
    · rw [List.concat_eq_append, ← List.cons_append, ← List.append_assoc] at same
      obtain ⟨rfl, e⟩ := List.append_inj' same rfl
      obtain rfl := List.head_eq_of_cons_eq e
      refine .inr ⟨others step (by simp), before, commit, after, rfl, fun s hs => others s (by simp [hs])⟩
  · rintro (⟨commit, rfl⟩ | ⟨other, before, commit, after, rfl, others⟩)
    · exact ⟨steps, commit, [], rfl, by simp⟩
    · refine ⟨before, commit, after ++ [step], by simp, fun s hs => ?_⟩
      rcases List.mem_append.1 hs with hs | hs
      · exact others s hs
      · obtain rfl := List.mem_singleton.1 hs
        exact other

/-- the length of a file is the one last set, if it was not deleted since -/
theorem told_eq_some_iff (key : Key) (n : UInt64) (steps : List Step) :
    (told steps)[key]? = some n ↔ LastSet key n steps := by
  induction steps using List.reverseRecOn with
  | nil =>
    simp [told, LastSet]
  | append_singleton steps step ih =>
    rw [told, List.foldl_append, ← told, lastSet_snoc, ← ih]
    cases step with
    | setLength k m commit =>
      by_cases same : k = key <;> simp [Step.tell, Step.file?, Std.ExtTreeMap.getElem?_insert, same]
    | delete k =>
      by_cases same : k = key <;> simp [Step.tell, Step.file?, Std.ExtTreeMap.getElem?_erase, same]
    | length | has | list | flush | reopen => simp [Step.tell, Step.file?]

/-- where a new catalog is taken only once every length is written, one map gives the answers of a ledger -/
theorem Ledger.outcomes_settled (written : Bool) (steps : List Step) (b : Ledger) (settled : Settled written steps)
    (same : written = true → b.written = b.shown) :
    b.outcomes steps = answers b.shown steps ∧ (steps.foldl Ledger.enter b).shown = steps.foldl Step.tell b.shown := by
  induction steps generalizing written b with
  | nil => exact ⟨rfl, rfl⟩
  | cons step steps ih =>
    -- one step shows the same lengths in both, and what is written stays so
    suffices one : ∃ later, Settled later steps ∧ (b.enter step).shown = step.tell b.shown ∧
        (later = true → (b.enter step).written = (b.enter step).shown) by
      obtain ⟨later, settled, shown, same⟩ := one
      obtain ⟨outcomes, last⟩ := ih later (b.enter step) settled same
      rw [shown] at outcomes last
      exact ⟨congrArg (List.cons _) outcomes, last⟩
    cases step with
    | setLength key n commit =>
      cases commit with
      | false => exact ⟨false, settled, rfl, nofun⟩
      | true => exact ⟨written, settled, rfl, fun e => congrArg (·.insert key n) (same e)⟩
    | delete key => exact ⟨written, settled, rfl, fun e => congrArg (·.erase key) (same e)⟩
    | flush clear => exact ⟨true, settled, rfl, fun _ => rfl⟩
    | reopen => exact ⟨true, settled.2, same settled.1, fun _ => rfl⟩
    | length | has | list => exact ⟨written, settled, rfl, same⟩

theorem keys_ascending (m : Catalog.Index) : m.keys.Pairwise (· < ·) := by
  have ordered := Std.ExtTreeMap.ordered_keys (t := m)
  exact ordered.imp fun h => compareOfLessAndEq_eq_lt.1 h

namespace Ways

/-- **A catalog is one map of lengths, and once it is flushed the table alone tells the map.** Take any run from an empty
table that takes a new catalog only where every length is written. Its answers are those of one map, in which a file has
the length last set, if it was not deleted since; files are listed once each, in ascending order. After a flush, a new
catalog over the same table answers every run to come as the old one would. -/
theorem lengths_told (w : Ways) (steps : List Step) (settled : Settled true steps) (apart : Catalog.Apart (InUse steps)) :
    (w.play steps {}).1 = answers ∅ steps ∧
      (∀ key n, (told steps)[key]? = some n ↔ LastSet key n steps) ∧ (told steps).keys.Pairwise (· < ·) ∧
      ∀ clear more, (∀ key, InUse more key → InUse steps key) →
        let g := (w.act (.flush clear) (w.play steps {}).2).2
        (w.play more g.reopened).1 = (w.play more g).1 := by
  have start : Shows {} ⟨{}, .empty, ()⟩ := ⟨rfl, rfl⟩
  obtain ⟨outcomes, v, shown, tells⟩ := play_expected w apart steps (fun _ => id) start (.empty _)
  obtain ⟨answered, _⟩ := Ledger.outcomes_settled true steps {} settled fun _ => rfl
  refine ⟨outcomes.trans answered, fun key n => told_eq_some_iff key n steps, keys_ascending _, ?_⟩
  intro clear more used g
  obtain ⟨u, shown', _, tells'⟩ := act_expected w apart tells (.flush clear) nofun _ shown
  have again : Shows g.reopened { u with held := {} } := ⟨rfl, shown'.2⟩
  calc (w.play more g.reopened).1
    _ = Ledger.outcomes _ more := (play_expected w apart more used again tells'.reopened).1
    _ = (w.play more g).1 := (play_expected w apart more used shown' tells').1.symm

/-- a committed length is deleted by a new catalog, while one that was only dirty is kept by the flush before it -/
theorem lengths_told_reopened :
    let w : Ways := ⟨4, fun _ keys => keys.reverse, fun _ keys => keys.reverse_perm⟩
    let steps : List Step := [.setLength "b" 2 true, .setLength "c" 3 false, .setLength "a" 1 false, .length "c", .flush true,
      .reopen, .delete "b", .length "b", .setLength "d" 4 false, .has "a", .list]
    (w.play steps {}).1 = [.ok .done, .ok .done, .ok .done, .ok (.length 3), .ok .done, .ok .done, .ok .done,
        .error (.notFound "b"), .ok .done, .ok (.flag true), .ok (.names ["a", "c", "d"])] ∧
      (∀ key n, (told steps)[key]? = some n ↔ LastSet key n steps) ∧ (told steps).keys.Pairwise (· < ·) ∧
      ∀ clear more, (∀ key, InUse more key → InUse steps key) →
        let g := (w.act (.flush clear) (w.play steps {}).2).2
        (w.play more g.reopened).1 = (w.play more g).1 := by
  intro w steps
  have apart : Catalog.Apart (InUse steps) := by
    have all : ∀ key ∈ steps.filterMap Step.file?, key ∈ ["a", "b", "c", "d"] := by decide
    exact .of_nodup _ (fun key ⟨step, here, e⟩ => all key (List.mem_filterMap.2 ⟨step, here, e⟩)) (by decide +kernel)
  obtain ⟨outcomes, rest⟩ := lengths_told w steps ⟨rfl, trivial⟩ apart
  exact ⟨outcomes.trans (by cbv), rest⟩

end Ways

end Archive

end RowFiles
