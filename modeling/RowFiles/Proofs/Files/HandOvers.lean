/-
Files that are moved between directories with caches of their own.

A run on a dock takes sessions, reads and deletes files, syncs, evicts, flushes caches and moves the clock. A copy from one
directory to another then moves the link of a file: the row changes hands as the shared table has it, and what the first
directory has not written stays in its cache.

- `Dock.Ways.play_reaches`: in a run in which nothing was too large, each directory keeps a stock of files.
- `Dock.Ways.linkCopy_hands_over`: the file that is moved has its length, and the cells that the shared table has.
- `Dock.Ways.handed_over`: so it has its bytes if they are written, as they are after a sync
  (`Dock.Ways.handed_over_synced`).
-/
import RowFiles.Proofs.Files.Answers
import RowFiles.Proofs.Files.Docks
import RowFiles.Proofs.Files.Syncing

namespace RowFiles

open Run

namespace Dock

/-! ## Steps -/

inductive Step where
  /-- a step on a directory -/
  | files (i : Nat) (step : Directory.Step)
  | evict (i : Nat)
  | flushCache (i : Nat) (empty : Bool)
  | clock (time : UInt64)

/-- a step that copies a file -/
def Step.copies : Step → Bool
  | .files _ (.copy ..) => true
  | .files .. | .evict _ | .flushCache .. | .clock _ => false

namespace Ways

variable (w : Ways)

def act : Step → Run Dock Site.Answer
  | .files i step => (w.directory i).act step
  | .evict i => (fun _ => .done) <$> (w.cache i).runEvictions
  | .flushCache i empty => (fun _ => .done) <$> (w.cache i).flush empty
  | .clock t => (fun _ => .done) <$> time.write t

/-- the outcomes of steps one after another, and the dock that they leave -/
def play : List Step → Dock → List (Except Error Site.Answer) × Dock
  | [], g => ([], g)
  | step :: rest, g =>
    let (o, g) := w.act step g
    let (os, g) := play rest g
    (o :: os, g)

/-- what a dock shows while every cache has the rows of its own directory only -/
def Shown : Dock → Shelves → Prop := Shows (w.Stands (fun _ => True) fun _ => True)

variable {w} {G : Nat → Prop} {E E' : Quay → Prop} {U : Key → Prop} {F : Stocks} {g : Dock} {i j : Nat} {src dst : Key}
  {n : UInt64}

theorem stocked_mono (hs : Stocked (Shows (w.Stands G E)) U g F) (weaker : E g.quay → E' g.quay) :
    Stocked (Shows (w.Stands G E')) U g F := by
  obtain ⟨V, ⟨catalogs, names, stands, also⟩, keeps⟩ := hs
  exact ⟨V, ⟨catalogs, names, stands, weaker also⟩, keeps⟩

/-- each directory works on its own shelf -/
theorem shown_laws (w : Ways) (i : Nat) : (w.directory i).Laws i w.Shown := directory_laws (fun _ => id) trivial

/-- a step that copies nothing and for which nothing was too large leaves stocks of which all is true that always is -/
theorem act_reaches (w : Ways) (hs : Stocked w.Shown (fun _ => True) g F) (sound : ∀ k, (F k).Sound w.width) {step : Step}
    (stays : step.copies = false) (clean : (w.act step g).1 ≠ .error .tooLarge) :
    ∃ F', Stocked w.Shown (fun _ => True) (w.act step g).2 F' ∧ ∀ k, (F' k).Sound w.width := by
  have quiet {α : Type} {y : Run Dock α} (i : Nat) (asks : ∀ (g : Dock) Q, (g.quay.seen i).Owns (g.quay.Owned i) Q () →
      Yields (g.Around i) y (g.quay.seen i) fun _ v => v.Owns (g.quay.Owned i) Q ()) :
      Ends (Stocked w.Shown fun _ => True) ((fun _ => Site.Answer.done) <$> y) F fun _ F' => F' = F := by
    refine Ends.map_answer (ends_stocked fun V keeps => ?_)
    refine Ends.mono (quiet_yields (fun _ => id) trivial asks V) fun _ W hW => ?_
    obtain ⟨_, _, rfl⟩ := hW
    exact ⟨F, keeps, rfl⟩
  cases step with
  | files i step =>
    obtain ⟨f, after, sound'⟩ := (w.shown_laws i).act_reaches (fun src dst e => by subst e; cases stays) w.positive
      (sound i) (fun _ _ => trivial) hs clean
    refine ⟨_, after, fun k => ?_⟩
    by_cases here : k = i
    · subst here
      rwa [Function.update_self]
    · rw [Function.update_of_ne here]
      exact sound k
  | evict i =>
    obtain ⟨_, after, rfl⟩ := quiet i
      (fun g _ before => (w.cache_laws g i).owned_runEvictions (g.around_unique i) before) g hs
    exact ⟨_, after, sound⟩
  | flushCache i empty =>
    obtain ⟨_, after, rfl⟩ := quiet i
      (fun g _ before => (w.cache_laws g i).owned_flush (g.around_unique i) before empty) g hs
    exact ⟨_, after, sound⟩
  | clock t =>
    obtain ⟨V, shown, keeps⟩ := hs
    exact ⟨F, ⟨V, shown, keeps⟩, sound⟩

theorem play_reaches (w : Ways) {steps : List Step} (stays : ∀ step ∈ steps, step.copies = false)
    (hs : Stocked w.Shown (fun _ => True) g F) (sound : ∀ k, (F k).Sound w.width)
    (clean : ∀ o ∈ (w.play steps g).1, o ≠ .error .tooLarge) :
    ∃ F', Stocked w.Shown (fun _ => True) (w.play steps g).2 F' ∧ ∀ k, (F' k).Sound w.width := by
  induction steps generalizing g F with
  | nil => exact ⟨F, hs, sound⟩
  | cons step steps ih =>
    obtain ⟨F', after, sound'⟩ := w.act_reaches hs sound (stays step List.mem_cons_self) (clean _ List.mem_cons_self)
    exact ih (fun step here => stays step (List.mem_cons_of_mem _ here)) after sound'
      fun o ho => clean o (List.mem_cons_of_mem _ ho)

/-- a new dock has no files -/
theorem stocked_empty (w : Ways) (U : Key → Prop) : Stocked w.Shown U {} fun _ => {} := by
  refine ⟨fun _ => {}, ⟨rfl, rfl, ⟨.empty, .empty _ _⟩, trivial⟩, fun _ => ?_⟩
  have empty := Layer.Indexes.empty U ()
  exact ⟨empty.records.coherent, empty.orderly, rfl⟩

/-! ## Rows that change hands -/

variable (w) in
/-- as much of a file as the shared table has -/
def stored (g : Dock) (i : Nat) (name : Key) (n : Nat) : Bytes :=
  match g.quay.row i name with
  | none => Layout.zeros n
  | some q => Layout.read w.width g.quay.shared q 0 n

theorem length_stored (g : Dock) (i : Nat) (name : Key) (n : Nat) : (w.stored g i name n).length = n := by
  rw [stored]
  cases g.quay.row i name with
  | none => exact Layout.length_zeros n
  | some q => exact Layout.length_read w.positive ..

theorem linkCopy_eq (fast : (w.settings i).fastCopy = true) (fast' : (w.settings j).fastCopy = true) (src dst : Key) :
    Directory.linkCopy (w.directory i) src (w.directory j) dst = (do
      let length ← (w.directory i).length src
      (w.directory j).removeIfPresent dst
      let physical ← (w.links i).resolve src
      (w.links j).link dst physical
      (w.directory j).catalog.setLength dst length true
      (w.directory i).catalog.delete src
      (w.links i).unlink src) := by
  have sourceLinks : (w.directory i).data.linker = some (w.links i).linker := rfl
  have destLinks : (w.directory j).data.linker = some (w.links j).linker := rfl
  have widths : (w.directory i).data.width = (w.directory j).data.width :=
    (w.width_directory i).trans (w.width_directory j).symm
  exact Directory.linkCopy_linked fast fast' sourceLinks destLinks widths src dst

/-- the length of a file is asked of its catalog, which leaves the quay alone -/
theorem length_run (hs : Stocked w.Shown U g F) (found : (F i).lengths[src]? = some n) :
    ∃ s, (w.directory i).length src g = (.ok n, s) ∧ s.quay = g.quay ∧ Stocked w.Shown U s F := by
  have start : Stocked (Shows (w.Stands (fun _ => True) (· = g.quay))) U g F := stocked_mono hs fun _ => rfl
  obtain ⟨_, s, _, asked, shown, measured, same⟩ := ((catalog_laws w _ i).lengthOf found).run start
  rw [measured] at asked
  rw [same] at shown
  have quay : s.quay = g.quay := by
    obtain ⟨_, ⟨_, _, _, quay⟩, _⟩ := shown
    exact quay
  exact ⟨s, asked, quay, stocked_mono shown fun _ => trivial⟩

/-- what is in the way of a copy is removed, and what belongs to other directories is as it was -/
theorem removal_run (hs : Stocked w.Shown U g F) (sound : (F j).Sound w.width) (used : U dst) :
    ∃ s, (w.directory j).removeIfPresent dst g = (.ok (), s) ∧ Quay.Spares j g.quay s.quay ∧
      Stocked w.Shown U s (Function.update F j ((F j).without dst)) := by
  have laws : (w.directory j).Laws j (Shows (w.Stands (fun _ => True) (Quay.Spares j g.quay))) :=
    directory_laws (fun later spares => spares.trans later) trivial
  have start : Stocked (Shows (w.Stands (fun _ => True) (Quay.Spares j g.quay))) U g F := stocked_mono hs fun _ => .refl ..
  obtain ⟨_, s, _, removed, shown, same⟩ :=
    (laws.removedIfPresent laws.deletes used fun gone => sound.absent (Std.ExtTreeMap.getElem?_eq_none gone)).run start
  rw [same] at shown
  have spares : Quay.Spares j g.quay s.quay := by
    obtain ⟨_, ⟨_, _, _, spares⟩, _⟩ := shown
    exact spares
  exact ⟨s, removed, spares, stocked_mono shown fun _ => trivial⟩

/-- **The link of a row is given to a key of another directory** that has no cells, and catalogs follow. From then on the
cache that the row comes from may have cells of a row that its directory does not own. -/
theorem handOver_run (hs : Stocked w.Shown U g F) (usedSrc : U src) (usedDst : U dst) (other : i ≠ j)
    (empty : ∀ c, (F j).data.get dst c = none) (n : UInt64) :
    ∃ r F', (do
      let physical ← (w.links i).resolve src
      (w.links j).link dst physical
      (w.directory j).catalog.setLength dst n true
      (w.directory i).catalog.delete src
      (w.links i).unlink src) g = (.ok (), r) ∧
      Stocked (Shows (w.Stands (· ≠ i) fun _ => True)) U r F' ∧ (F' i).lengths[src]? = none ∧
      (F' j).lengths[dst]? = some n ∧ ∀ c, (F' j).data.get dst c = g.quay.beneath i src c := by
  obtain ⟨V, ⟨catalogs, names, ⟨P, stowed⟩, _⟩, keeps⟩ := hs
  obtain ⟨q, z, resolved, stowed, there, _, cells⟩ := resolve_run stowed i src
  have linked : (w.links j).link dst q { g with quay := z } =
      (.ok (), { g with quay := { z with toYard := z.link j dst q } }) := rfl
  rw [bind_of_ok resolved, bind_of_ok linked]
  -- two keys share the row from here on, which does not matter to catalogs
  have start : Stocked (Shows fun z' _ => z' = { z with toYard := z.link j dst q }) U
      { g with quay := { z with toYard := z.link j dst q } } F := ⟨V, ⟨catalogs, names, rfl⟩, keeps⟩
  obtain ⟨_, s, F₁, recorded, shown, isThere⟩ := ((catalog_laws w _ j).recorded usedDst n).run start
  obtain ⟨_, s', F₂, forgotten, ⟨W, ⟨catalogs, names, quay⟩, keeps'⟩, isGone⟩ :=
    ((catalog_laws w _ i).forgotten usedSrc).run shown
  rw [bind_of_ok recorded, bind_of_ok forgotten]
  have unlinked : (w.links i).unlink src s' =
      (.ok (), { s' with quay := { s'.quay with toYard := s'.quay.unlink i src } }) :=
    Yard.unlink_linkTable
  have blank (c : Column) : ((Shelf.data ∘ V) j).get dst c = none := by
    rw [Function.comp_apply, (keeps j).data, empty]
  have left (m : Nat) (ne : m ≠ i) : True ∧ m ≠ i := ⟨trivial, ne⟩
  have handed := stowed.handedOver trivial other there blank left
  obtain ⟨D, hD⟩ : ∃ D, D = Wired.moved
      (Function.update (Shelf.data ∘ V) i (((Shelf.data ∘ V) i).adopt src z.shared q)) i src j dst := ⟨_, rfl⟩
  rw [← hD] at handed
  refine ⟨_, fun m => { F₂ m with data := D m }, unlinked, ⟨fun m => { W m with data := D m }, ⟨catalogs, names, ?_⟩,
    fun m => ⟨(keeps' m).lengths, (keeps' m).orderly, rfl⟩⟩, ?_, ?_, fun c => ?_⟩
  · simp only [quay]
    exact ⟨⟨_, handed⟩, trivial⟩
  · simp [isGone]
  · simp [isGone, isThere, Ne.symm other]
  · rw [hD, Wired.get_moved, if_neg fun e => other e.1, if_pos ⟨rfl, rfl⟩, Function.update_self, Table.get_adopt, if_pos rfl,
      cells]

/-- **A file is moved** with its link: it has its length, and the cells that the shared table has. -/
theorem linkCopy_hands_over (hs : Stocked w.Shown U g F) (sound : ∀ k, (F k).Sound w.width) (usedSrc : U src)
    (usedDst : U dst) (fast : (w.settings i).fastCopy = true) (fast' : (w.settings j).fastCopy = true) (other : i ≠ j)
    (found : (F i).lengths[src]? = some n) :
    ∃ r F', Directory.linkCopy (w.directory i) src (w.directory j) dst g = (.ok (), r) ∧
      Stocked (Shows (w.Stands (· ≠ i) fun _ => True)) U r F' ∧ (F' i).lengths[src]? = none ∧
      (F' j).lengths[dst]? = some n ∧ ∀ c, (F' j).data.get dst c = g.quay.beneath i src c := by
  obtain ⟨s, asked, same, shown⟩ := length_run hs found
  obtain ⟨s', removed, spares, shown⟩ := removal_run shown (sound j) usedDst
  have empty (c : Column) : (Function.update F j ((F j).without dst) j).data.get dst c = none := by
    rw [Function.update_self, Stock.get_without, if_pos rfl]
  obtain ⟨r, F', moved, shown, gone, there, cells⟩ := handOver_run shown usedSrc usedDst other empty n
  refine ⟨r, F', ?_, shown, gone, there, fun c => ?_⟩
  · rw [linkCopy_eq fast fast', bind_of_ok asked, bind_of_ok removed, moved]
  · rw [cells, spares.beneath other, same]

/-! ## Cells that are written -/

/-- no cell of a file is in the cache of its directory only -/
def Written (g : Dock) (i : Nat) (name : Key) : Prop :=
  ∀ q, g.quay.row i name = some q → ∀ c, ⟨q, c⟩ ∉ (g.quay.caches i).marks

/-- once its cells are written, the shared table has a file -/
theorem stored_of_written (hs : Stocked w.Shown U g F) {name : Key} {b : Bytes} (has : (F i).Has w.width name b)
    (written : Written g i name) : w.stored g i name b.length = b := by
  obtain ⟨V, ⟨_, _, ⟨P, stowed⟩, _⟩, keeps⟩ := hs
  have bytes := has.bytes
  rw [← (keeps i).data] at bytes
  rw [stored]
  cases there : g.quay.row i name with
  | none =>
    have empty (c : Column) : (V i).data.get name c = none := by
      have cell := stowed.wired.cells i rfl name c
      exact cell.trans (congrArg (Option.bind · _) there)
    exact (Layout.read_blank w.positive empty 0 _).symm.trans bytes
  | some q => exact (Layout.read_congr (fun c => stowed.get_clean trivial there (written q there c)) 0 _).trans bytes

/-- **A sync** leaves no cell of its directory unwritten, and no file changed. -/
theorem synced (hs : Stocked w.Shown U g F) (i : Nat) : ∃ r, w.act (.files i .sync) g = (.ok .done, r) ∧
    Stocked w.Shown U r F ∧ ∀ name, Written r i name := by
  obtain ⟨V, ⟨catalogs, names, ⟨P, stowed⟩, _⟩, keeps⟩ := hs
  obtain ⟨_, _, v, m, flushed, after, _, _, clean⟩ := quiet_run (R := fun _ _ v => ∀ a, a ∉ v.held.marks) stowed trivial
    fun Q before => (w.cache_laws g i).owned_sync (g.around_unique i) before
  -- what follows is about the catalog, which does not touch the cache
  have start : Shows (fun z D => w.Stands (fun _ => True) (fun _ => True) z D ∧ ∀ a, a ∉ (z.caches i).marks)
      { g with quay := g.quay.after i v, drawn := m } V := by
    refine ⟨catalogs, names, ⟨⟨P, after⟩, trivial⟩, ?_⟩
    simp only [Quay.after, Function.update_self]
    exact clean
  obtain ⟨_, r, W, filed, ⟨catalogs, names, stands, clean⟩, keeps, _⟩ :=
    (((catalog_laws w _ i).synced (i := i)) keeps).run start
  have ran : (w.directory i).sync g = (.ok (), r) := (bind_of_ok flushed).trans filed
  refine ⟨r, ?_, ⟨W, ⟨catalogs, names, stands⟩, keeps⟩, fun _ _ _ _ => clean _⟩
  rw [act, Directory.act, map_apply, ran]

/-! ## Copies -/

theorem copy_links (other : i ≠ j) (src dst : Key) :
    Directory.copy (w.directory i) src (w.directory j) dst =
      tryCatch (Directory.linkCopy (w.directory i) src (w.directory j) dst) fun
        | .fastCopy _ => Directory.byteCopy (w.directory i) src (w.directory j) dst
        | e => throw e :=
  if_neg fun same => other same.1

/-- a file that is copied by links is gone from one directory, and the other has what the shared table has of it -/
theorem copy_hands_over (hs : Stocked w.Shown (fun _ => True) g F) (sound : ∀ k, (F k).Sound w.width) (other : i ≠ j)
    (fast : (w.settings i).fastCopy = true) (fast' : (w.settings j).fastCopy = true) {b : Bytes}
    (has : (F i).Has w.width src b) : ∃ r, Directory.copy (w.directory i) src (w.directory j) dst g = (.ok (), r) ∧
      (w.directory i).Lacks r src ∧ (w.directory j).Holds r dst (w.stored g i src b.length) := by
  obtain ⟨r, F', moved, shown, gone, there, cells⟩ :=
    linkCopy_hands_over hs sound trivial trivial fast fast' other has.length
  have dest : (w.directory j).Laws j (Shows (w.Stands (· ≠ i) fun _ => True)) := directory_laws (fun _ => id) other.symm
  refine ⟨r, ?_, (catalog_laws w _ i).lacks shown gone, (dest.holds_iff w.positive shown).2 ⟨?_, ?_, ?_⟩⟩
  · rw [copy_links other, tryCatch_apply, moved]
  · rw [there, length_stored]
  · rw [length_stored]
    exact has.small
  · rw [length_stored, stored]
    cases row : g.quay.row i src with
    | none => exact Layout.read_blank w.positive (fun c => (cells c).trans (congrArg (Option.bind · _) row)) ..
    | some q => exact Layout.read_congr (fun c => (cells c).trans (congrArg (Option.bind · _) row)) ..

/-- a run in which no file was copied and nothing was too large leaves a stock for each directory, and what readers find in
a directory is decided by its stock -/
theorem stocked_reached (w : Ways) {steps : List Step} (stays : ∀ step ∈ steps, step.copies = false)
    (clean : ∀ o ∈ (w.play steps {}).1, o ≠ .error .tooLarge) :
    ∃ F, Stocked w.Shown (fun _ => True) (w.play steps {}).2 F ∧ ∀ k, (F k).Sound w.width :=
  w.play_reaches stays (w.stocked_empty _) (fun _ => Stock.Sound.empty w.width) clean

/-- **A file that changes hands** is gone from one directory, and in the other it has its length and the bytes that the
shared table has of it. These are its own bytes if none of its cells is still to be written. Take any run on a new dock in
which no file was copied and nothing was too large, and a copy by links after it. -/
theorem handed_over (w : Ways) (steps : List Step) (stays : ∀ step ∈ steps, step.copies = false)
    (clean : ∀ o ∈ (w.play steps {}).1, o ≠ .error .tooLarge) {i j : Nat} (other : i ≠ j)
    (fast : (w.settings i).fastCopy = true) (fast' : (w.settings j).fastCopy = true) (src dst : Key) {b : Bytes} :
    let g := (w.play steps {}).2
    (w.directory i).Holds g src b →
    ∃ r, Directory.copy (w.directory i) src (w.directory j) dst g = (.ok (), r) ∧
      (w.directory i).Lacks r src ∧ (w.directory j).Holds r dst (w.stored g i src b.length) ∧
      (Written g i src → w.stored g i src b.length = b) := by
  intro g holds
  obtain ⟨F, reached, sound⟩ := w.stocked_reached stays clean
  have has := (w.shown_laws i).holds_iff w.positive reached |>.1 holds
  obtain ⟨r, copied, gone, there⟩ := copy_hands_over reached sound other fast fast' has
  exact ⟨r, copied, gone, there, stored_of_written reached has⟩

/-- a dock with narrow columns, whose keys are longer and longer words -/
def narrow : Ways where
  width := 4
  nameWidth _ := 64
  linkWidth _ := 64
  cached _ := {}
  settings _ := {}
  fresh _ m := String.ofList (List.replicate m 'k')
  cells _ := List.reverse
  files _ := List.reverse
  positive := Nat.succ_pos 3
  distinct := letters_distinct
  cells_perm _ := Vault.Ways.cells_backwards
  files_perm _ := List.reverse_perm

/-- a file whose cells are written has its bytes in the other directory -/
theorem handed_over_written :
    let w := narrow
    let g := (w.play [.files 0 (.write "f" [.write [1, 2, 3]]), .files 0 .sync] {}).2
    (w.directory 0).Holds g "f" [1, 2, 3] ∧
      ∃ r, Directory.copy (w.directory 0) "f" (w.directory 1) "g" g = (.ok (), r) ∧ (w.directory 0).Lacks r "f" ∧
        (w.directory 1).Holds r "g" [1, 2, 3] := by
  intro w g
  have stays : ∀ step ∈ [Step.files 0 (.write "f" [.write [1, 2, 3]]), .files 0 .sync], step.copies = false := by decide
  have clean : ∀ o ∈ (w.play [.files 0 (.write "f" [.write [1, 2, 3]]), .files 0 .sync] {}).1, o ≠ .error .tooLarge := by
    decide +kernel
  have holds : (w.directory 0).Holds g "f" [1, 2, 3] := by
    obtain ⟨_, reached, _⟩ := w.stocked_reached stays clean
    exact (w.shown_laws 0).holds_of_read w.positive reached (by decide) (by decide +kernel) (by decide +kernel)
  have unmarked : (g.quay.caches 0).marks.toList = [] := by decide +kernel
  have written : Written g 0 "f" := fun q _ c marked => by
    rw [← Std.ExtTreeSet.mem_toList, unmarked] at marked
    cases marked
  obtain ⟨r, copied, gone, there, same⟩ :=
    handed_over w _ stays clean (i := 0) (j := 1) (by decide) rfl rfl "f" "g" holds
  rw [same written] at there
  exact ⟨holds, r, copied, gone, there⟩

/-- a file whose cells are only in the cache of its directory loses its bytes -/
theorem handed_over_lost :
    let w := narrow
    let g := (w.play [.files 0 (.write "f" [.write [1, 2, 3]]), .files 0 (.read "f" 0 3)] {}).2
    let copied := Directory.copy (w.directory 0) "f" (w.directory 1) "g" g
    (w.directory 0).Holds g "f" [1, 2, 3] ∧ copied.1 = .ok () ∧ ¬ (w.directory 1).Holds copied.2 "g" [1, 2, 3] := by
  intro w g copied
  have stays : ∀ step ∈ [Step.files 0 (.write "f" [.write [1, 2, 3]]), .files 0 (.read "f" 0 3)],
      step.copies = false := by decide
  have clean : ∀ o ∈ (w.play [.files 0 (.write "f" [.write [1, 2, 3]]), .files 0 (.read "f" 0 3)] {}).1,
      o ≠ .error .tooLarge := by decide +kernel
  obtain ⟨_, reached, _⟩ := w.stocked_reached stays clean
  refine ⟨(w.shown_laws 0).holds_of_read w.positive reached (by decide) (by decide +kernel) (by decide +kernel),
    by decide +kernel, fun holds => ?_⟩
  have zeros : ((w.directory 1).withReader "g" (fun r => r.readBytes 0 3) copied.2).1 = .ok [0, 0, 0] := by decide +kernel
  have bytes := zeros.symm.trans (holds.reads 0 3 (by decide) (by decide))
  cases bytes

/-- **After a sync** of its directory a file changes hands with all its bytes. -/
theorem handed_over_synced (w : Ways) (steps : List Step) (stays : ∀ step ∈ steps, step.copies = false)
    (clean : ∀ o ∈ (w.play steps {}).1, o ≠ .error .tooLarge) {i j : Nat} (other : i ≠ j)
    (fast : (w.settings i).fastCopy = true) (fast' : (w.settings j).fastCopy = true) (src dst : Key) {b : Bytes} :
    let g := (w.act (.files i .sync) (w.play steps {}).2).2
    (w.directory i).Holds g src b →
    ∃ r, Directory.copy (w.directory i) src (w.directory j) dst g = (.ok (), r) ∧
      (w.directory i).Lacks r src ∧ (w.directory j).Holds r dst b := by
  intro g holds
  obtain ⟨F, reached, sound⟩ := w.stocked_reached stays clean
  obtain ⟨g', ran, shown, written⟩ := synced reached i
  obtain rfl : g = g' := congrArg Prod.snd ran
  have has := (w.shown_laws i).holds_iff w.positive shown |>.1 holds
  obtain ⟨r, copied, gone, there⟩ := copy_hands_over shown sound other fast fast' has
  rw [stored_of_written shown has (written src)] at there
  exact ⟨r, copied, gone, there⟩

end Ways

end Dock

end RowFiles
