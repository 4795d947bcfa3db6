/-
Round trips through files.

A desk has a table of data and one of names in memory, a catalog over the names, and room for a writer and a reader.
Writers are used on it one after another, each in a session of appends and flushes.

- `sessions_round_trip`: a file that has no bytes and no length takes all bytes written, in the columns that the bytes
  alone decide, and gives them back to readers at any offset. Each session reports where it ended and its own checksum.
- `sessions_round_trip_too_wide`: this fails for columns of more bytes than a buffer can have.

Sessions draw the orders in which they write columns and lengths; nothing depends on them.
-/
import RowFiles.Proofs.Files.Readers
import RowFiles.Proofs.Files.Sessions

namespace RowFiles

open Run

/-! ## A desk -/

structure Desk where
  data : Table Column
  names : Table Column
  catalog : CatalogState := {}
  writer : WriterState := {}
  reader : ReaderState := {}
  /-- how often an order has been drawn -/
  drawn : Nat := 0

namespace Desk

/-- the order drawn at the `n`th time for some items is `walk n` of them -/
def draw {α : Type} (walk : Nat → List α → List α) (as : List α) : Run Desk (List α) :=
  fun h => (.ok (walk h.drawn as), { h with drawn := h.drawn + 1 })

variable (walkKeys : Nat → List Key → List Key) (walkCells : Nat → List (Address Column) → List (Address Column))
  (width nameWidth : Nat) (key : Key)

def catalogOver : Catalog (Run Desk) where
  rows := Table.rows (Run.part Desk.names fun t h => { h with names := t }) nameWidth
  state := Run.part Desk.catalog fun x h => { h with catalog := x }
  order := draw walkKeys

def dataRows : Rows (Run Desk) := Table.rows (Run.part Desk.data fun t h => { h with data := t }) width

/-- a writer on a file -/
def writerOf : Writer (Run Desk) where
  rows := dataRows width
  catalog := catalogOver walkKeys nameWidth
  key := key
  state := Run.part Desk.writer fun x h => { h with writer := x }
  order := draw walkCells

/-- a reader of a file, opened at any length -/
def readerOf (length : UInt64) : Reader (Run Desk) where
  rows := dataRows width
  key := key
  length := length
  state := Run.part Desk.reader fun x h => { h with reader := x }

/-- a reader is opened and reads stretches of bytes -/
def readings (length : UInt64) (stretches : List (UInt64 × Nat)) : Run Desk (List Bytes) := do
  (readerOf width key length).state.write {}
  stretches.mapM fun q => (readerOf width key length).readBytes q.1 q.2

/-! ## What a desk shows -/

/-- what a desk shows of its writer and its catalog -/
def Written (h : Desk) (u : Layer CatalogState (Layer WriterState Unit)) : Prop :=
  h.catalog = u.held ∧ h.names = u.beneath ∧ h.writer = u.rest.held ∧ h.data = u.rest.beneath

/-- what a desk shows of its reader -/
def Read (h : Desk) (v : Layer ReaderState Unit) : Prop := h.reader = v.held ∧ h.data = v.beneath

variable {walkKeys walkCells}

theorem catalogOver_laws (perm : ∀ n ks, (walkKeys n ks).Perm ks) :
    (catalogOver walkKeys nameWidth).Laws Written Eq where
  inner _ _ := Table.rows_serve (fun _ _ hs => hs.2.1) (fun _ _ _ hs => ⟨hs.1, rfl, hs.2.2⟩) nameWidth never
  read _ _ hs := ⟨_, hs, _, rfl, hs.1, rfl⟩
  write x u _ hs := ⟨{ u with held := x }, ⟨rfl, hs.2⟩, (), rfl, rfl⟩
  order ks u _ hs := ⟨u, hs, _, rfl, perm _ ks, rfl⟩

theorem writerOf_laws (permKeys : ∀ n ks, (walkKeys n ks).Perm ks) (permCells : ∀ n as, (walkCells n as).Perm as) :
    (writerOf walkKeys walkCells width nameWidth key).Laws Written Eq where
  catalog := catalogOver_laws nameWidth permKeys
  writer _ _ :=
    { inner := fun _ _ =>
        Table.rows_serve (fun _ _ hs => hs.2.2.2) (fun _ _ _ hs => ⟨hs.1, hs.2.1, hs.2.2.1, rfl⟩) width never
      read := fun _ _ hs => ⟨_, hs, _, rfl, hs.2.2.1, rfl⟩
      write := fun x v _ hs => ⟨{ v with held := x }, ⟨hs.1, hs.2.1, rfl, hs.2.2.2⟩, (), rfl, rfl⟩ }
  order as u _ hs := ⟨u, hs, _, rfl, permCells _ as, rfl⟩

theorem readerOf_laws (length : UInt64) :
    Layered (readerOf width key length).rows (readerOf width key length).state Read Eq never where
  inner _ _ := Table.rows_serve (fun _ _ hs => hs.2) (fun _ _ _ hs => ⟨hs.1, rfl⟩) width never
  read _ _ hs := ⟨_, hs, _, rfl, hs.1, rfl⟩
  write x v _ hs := ⟨{ v with held := x }, ⟨rfl, hs.2⟩, (), rfl, rfl⟩

/-- a reader reads stretches of a row's bytes in any order -/
theorem readings_holds (hw : 0 < width) {b : Bytes} {h : Desk} (holds : Layout.Holds width h.data key b)
    (length : UInt64) (stretches : List (UInt64 × Nat))
    (small : ∀ q ∈ stretches, q.2 ≤ longestBuffer ∧ q.1.toNat + q.2 < UInt64.size) :
    ∃ h', readings width key length stretches h = (.ok (stretches.map fun q => Layout.slice b q.1.toNat q.2), h') := by
  have laws := readerOf_laws width key length
  have reads : Yields Read (readings width key length stretches) ⟨h.reader, h.data, ()⟩ fun bs w =>
      bs = stretches.map (fun q => Layout.slice b q.1.toNat q.2) ∧
        (readerOf width key length).Left ⟨{}, h.data, ()⟩ w := by
    refine (laws.write {} _).step ?_
    refine Yields.mapM _ (fun q hq v left => ?_) ⟨nofun, rfl, rfl⟩
    have holds' : Layout.Holds width v.beneath key b := left.beneath ▸ holds
    have reads := Reader.readBytes_holds (Reader.laws_of_layered laws) hw left.fresh holds' (small q hq).1
      (small q hq).2
    refine reads.mono ?_
    intro _ w hu
    obtain ⟨rfl, left'⟩ := hu
    exact ⟨rfl, left.trans left'⟩
  obtain ⟨_, h', _, run, _, rfl, _⟩ := reads.run ⟨rfl, rfl⟩
  exact ⟨h', run⟩

/-! ## Round trips -/

/-- a file of which nothing is known has no length -/
theorem coherent_new {h : Desk} (unknown : h.catalog.lengths[key]? = none) (clean : key ∉ h.catalog.dirty)
    (unrecorded : h.names.get (Catalog.lengthRow key) Catalog.lengthColumn = none) :
    Catalog.Coherent (· = key) (fun _ => none) [] h.catalog h.names := by
  refine ⟨?_, ?_, ?_⟩
  · rintro _ rfl (dirty | owed)
    · exact absurd dirty clean
    · cases owed
  · intro _ n hw known
    subst hw
    rw [unknown] at known
    cases known
  · intro _ hw _ _
    subst hw
    exact unrecorded

/-- **Round trip.** Sessions on a file that has no bytes and no length leave the canonical row of all bytes written, and
their number as its length; other rows stay. Any reader opened afterwards reads any stretches of the bytes. -/
theorem sessions_round_trip (permKeys : ∀ n ks, (walkKeys n ks).Perm ks) (permCells : ∀ n as, (walkCells n as).Perm as)
    (hw : 0 < width) (fits : width ≤ longestBuffer) (h : Desk) (empty : ∀ c, h.data.get key c = none)
    (unknown : h.catalog.lengths[key]? = none) (clean : key ∉ h.catalog.dirty)
    (unrecorded : h.names.get (Catalog.lengthRow key) Catalog.lengthColumn = none)
    (first : List Writer.Step) (later : List (List Writer.Step)) (b : Bytes)
    (all : (first :: later).flatMap Writer.bytes = b) (small : b.length < UInt64.size) :
    ∃ h', (first :: later).mapM (writerOf walkKeys walkCells width nameWidth key).session h =
        (.ok (Writer.reports 0 (first :: later)), h') ∧
      Layout.Canonical width h'.data key b ∧ (∀ k ≠ key, h'.data.row k = h.data.row k) ∧
      h'.writer.pointer = UInt64.ofNat b.length ∧
      h'.names.get (Catalog.lengthRow key) Catalog.lengthColumn = some (Bytes.ofUInt64 (UInt64.ofNat b.length)) ∧
      (∃ h'', (catalogOver walkKeys nameWidth).length key h' = (.ok (UInt64.ofNat b.length), h'')) ∧
      ∀ length stretches, (∀ q ∈ stretches, q.2 ≤ longestBuffer ∧ q.1.toNat + q.2 < UInt64.size) →
        ∃ h'', readings width key length stretches h' =
          (.ok (stretches.map fun q => Layout.slice b q.1.toNat q.2), h'') := by
  subst all
  have laws := writerOf_laws width nameWidth key permKeys permCells
  have stored : (writerOf walkKeys walkCells width nameWidth key).Stored (· = key) (fun _ => none) h.data () []
      ⟨h.catalog, h.names, h.writer, h.data, ()⟩ :=
    ⟨.inr ⟨rfl, rfl, coherent_new key unknown clean unrecorded⟩, .empty empty, fun _ _ _ => rfl, rfl⟩
  have fresh : ([] : Bytes).length + ((first :: later).flatMap Writer.bytes).length < UInt64.size := by
    rw [List.length_nil, Nat.zero_add]
    exact small
  have sessions := laws.sessions (S := (· = key)) rfl hw fits first later stored fresh
  obtain ⟨_, h', u, run, shown, rfl, ⟨mine, appends⟩, flushed⟩ := sessions.run ⟨rfl, rfl, rfl, rfl⟩
  rw [List.nil_append] at appends
  have after := appends.stored flushed
  obtain ⟨catalog, names, writer, data⟩ := shown
  have holds : Layout.Holds width h'.data key ((first :: later).flatMap Writer.bytes) := data ▸ after.holds
  refine ⟨h', run, holds.canonical hw (Nat.le_of_lt small), fun k hk => ?_, ?_, ?_, ?_, fun length stretches short =>
    readings_holds width key hw holds length stretches short⟩
  · rw [data]
    exact Table.row_congr (after.others k hk)
  · rw [writer, ← appends.pointer, UInt64.ofNat_toNat]
  · rw [names, appends.lengths.get_of_clean rfl flushed.lengths]
    exact congrArg (Option.map Bytes.ofUInt64) (Function.update_self key (some (UInt64.ofNat _)) fun _ => none)
  · obtain ⟨_, h'', _, found, _, rfl, _⟩ := (laws.catalog.length_some ⟨appends.lengths, rfl⟩ rfl
      (Function.update_self ..)).run ⟨catalog, names, writer, data⟩
    exact ⟨h'', found⟩

/-- two sessions, the first of which is flushed within a column, beside another row -/
theorem sessions_round_trip_of_two :
    let desk : Desk := { data := Table.empty.put "g" 0 [9], names := .empty }
    let writer := writerOf (fun _ => List.reverse) (fun _ => List.reverse) 4 8 "f"
    ∃ h', [[.write [1, 2, 3], .flush, .write [4, 5]], [.write [6]]].mapM writer.session desk =
        (.ok [(5, 0x470B99F4), (6, 0x3B614AB8)], h') ∧
      h'.data.row "f" = [(0, [1, 2, 3, 4]), (1, [5, 6, 0, 0])] ∧
      ∃ h'', readings 4 "f" 6 [(3, 4), (0, 1)] h' = (.ok [[4, 5, 6, 0], [1]], h'') := by
  intro desk writer
  have absent : ∀ c, desk.data.get "f" c = none := fun c => by
    rw [Table.get_put, if_neg fun e => absurd e.1 (by decide), Table.get_empty]
  obtain ⟨h', run, canonical, _, _, _, _, reads⟩ := sessions_round_trip 4 8 "f" (fun _ => List.reverse_perm)
    (fun _ => List.reverse_perm) (by decide) (by decide) desk absent (by simp [desk]) Std.ExtTreeSet.not_mem_empty
    (Table.get_empty _ _) [.write [1, 2, 3], .flush, .write [4, 5]] [[.write [6]]] [1, 2, 3, 4, 5, 6] rfl (by decide)
  have reports : Writer.reports 0 [[.write [1, 2, 3], .flush, .write [4, 5]], [.write [6]]] =
      [(5, 0x470B99F4), (6, 0x3B614AB8)] := by decide +kernel
  rw [reports] at run
  exact ⟨h', run, canonical.row, reads 6 [(3, 4), (0, 1)] (by decide)⟩

/-- no byte can be written where columns are wider than any buffer -/
theorem sessions_round_trip_too_wide :
    let desk : Desk := { data := .empty, names := .empty }
    let writer := writerOf (fun _ => id) (fun _ => id) (UInt64.size / 2) 64 "f"
    ¬ ∃ h', [[.write [1]]].mapM writer.session desk = (.ok (Writer.reports 0 [[.write [1]]]), h') := by
  intro desk writer
  have refused : ([[.write [1]]].mapM writer.session desk).1 = .error .tooLarge := by decide +kernel
  intro h
  obtain ⟨h', run⟩ := h
  rw [run] at refused
  cases refused

end Desk

end RowFiles
