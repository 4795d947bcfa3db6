/-
Catalogs of all files. A catalog and its rows stand for one map of lengths (`Layer.Indexes`), in which a file is there or
not. Each call answers from the map and changes it at most at its own file.

- `Catalog.Laws.find`, `Catalog.Laws.has`: what is asked of one file.
- `Catalog.Laws.record`, `Catalog.Laws.delete`, `Catalog.Laws.flushed`: lengths are set, forgotten and written out.
- `Catalog.Laws.keys`: if no two files in use share a column of the listing, the listing and the files that are dirty are
  together all files of the map, each once, in ascending order.
-/
import Mathlib.Data.Set.List
import RowFiles.Proofs.Files.Catalogs

namespace RowFiles

open Run

/-- the length of each file -/
abbrev Catalog.Index := Std.ExtTreeMap Key UInt64 compare

/-- the length of a file that is there -/
def Catalog.Index.find (m : Catalog.Index) (key : Key) : Except Error UInt64 :=
  match m[key]? with
  | some n => .ok n
  | none => .error (.notFound key)

theorem Catalog.Index.find_eq_ok {m : Catalog.Index} {key : Key} {n : UInt64} : m.find key = .ok n ↔ m[key]? = some n := by
  rw [find]
  cases m[key]? with
  | none => exact iff_of_false (by rintro ⟨⟩) (by rintro ⟨⟩)
  | some k => exact ⟨fun e => by cases e; rfl, fun e => by cases e; rfl⟩

theorem Catalog.Index.getElem?_insert_eq_update (m : Catalog.Index) (key : Key) (n : UInt64) :
    ((m.insert key n)[·]?) = Function.update (m[·]?) key (some n) := by
  funext k
  rw [Std.ExtTreeMap.getElem?_insert, Function.update_apply]
  by_cases same : key = k
  · simp [same]
  · simp [same, Ne.symm same]

theorem Catalog.Index.getElem?_erase_eq_update (m : Catalog.Index) (key : Key) :
    ((m.erase key)[·]?) = Function.update (m[·]?) key none := by
  funext k
  rw [Std.ExtTreeMap.getElem?_erase, Function.update_apply]
  by_cases same : key = k
  · simp [same]
  · simp [same, Ne.symm same]

/-- marking a file and cleaning it again is cleaning it -/
theorem CatalogState.clean_markDirty (x : CatalogState) (key : Key) : (x.markDirty key).clean key = x.clean key := by
  refine congrArg (CatalogState.mk x.lengths) (Std.ExtTreeSet.ext_mem fun k => ?_)
  by_cases same : key = k <;> simp [markDirty, same]

/-! ## Names in the listing -/

namespace Catalog

/-- an entry of the listing names its file -/
theorem fileOf?_lengthRow (key : Key) : fileOf? (lengthRow key) = some key := by
  have head : keyHead.toList.isPrefixOf (keyHead.toList ++ key.toList) = true :=
    List.isPrefixOf_iff_prefix.2 (List.prefix_append ..)
  simp only [fileOf?, lengthRow_toList, head, if_true, List.drop_left, String.ofList_toList]

theorem encode_lengthRow_injective : Function.Injective fun key => Utf8.encode (lengthRow key) := fun a b h => by
  have texts := congrArg Utf8.decode h
  simp only [Utf8.decode_encode, Except.ok.injEq] at texts
  exact lengthRow_injective texts

/-- entries of the listing are read as the files they name -/
theorem listed_entries {σ : Type} (names : List Key) :
    listed (names.map fun key => Utf8.encode (lengthRow key)) = (pure names : Run σ (List Key)) := by
  induction names with
  | nil => rfl
  | cons key names ih =>
    rw [List.map_cons, listed, ih]
    simp only [Utf8.decode_encode, pure_bind, fileOf?_lengthRow]
    rfl

/-- dirty files are in use, and an entry of the listing stands in the column of the file it names, which is in use -/
structure Named (U : Key → Prop) (x : CatalogState) (t : Table Column) : Prop where
  dirty : ∀ key ∈ x.dirty, U key
  entries : ∀ col v, t.get listing col = some v →
    ∃ key, U key ∧ listingColumn key = col ∧ Utf8.encode (lengthRow key) = v

/-- a file is listed if it is dirty or has its entry -/
def Lists (x : CatalogState) (t : Table Column) (key : Key) : Prop :=
  key ∈ x.dirty ∨ t.get listing (listingColumn key) = some (Utf8.encode (lengthRow key))

/-- a length row has no other cell than that of the length -/
theorem hasKey_lengthRow {t : Table Column} {key : Key}
    (recorded : ∀ col v, t.get (lengthRow key) col = some v → col = lengthColumn) :
    t.hasKey (lengthRow key) = (t.get (lengthRow key) lengthColumn).isSome := by
  rw [Bool.eq_iff_iff, Table.hasKey_iff, Option.isSome_iff_exists]
  constructor
  · intro hc
    obtain ⟨col, cell, found⟩ := hc
    obtain rfl := recorded col cell found
    exact ⟨cell, found⟩
  · intro hc
    exact ⟨_, hc⟩

/-! ## Files that come and go -/

/-- the table after a file's length and its entry in the listing are removed -/
def forgotten (t : Table Column) (key : Key) : Table Column :=
  (t.delete (lengthRow key)).deleteColumn listing (listingColumn key)

theorem get_forgotten (t : Table Column) (key key' : Key) (col : Column) :
    (forgotten t key).get (lengthRow key') col = if key = key' then none else t.get (lengthRow key') col := by
  have other : ¬ (listing = lengthRow key' ∧ listingColumn key = col) := fun e => lengthRow_ne_listing key' e.1.symm
  rw [forgotten, Table.get_deleteColumn, if_neg other, Table.get_delete]
  simp only [lengthRow_injective.eq_iff]

theorem get_forgotten_listing (t : Table Column) (key : Key) (col : Column) :
    (forgotten t key).get listing col = if listingColumn key = col then none else t.get listing col := by
  rw [forgotten, Table.get_deleteColumn, Table.get_delete, if_neg (lengthRow_ne_listing key)]
  simp only [true_and]

variable {U : Key → Prop} {L : Key → Option UInt64} {S : Key → Prop} {owed : List Key} {x : CatalogState} {t : Table Column}
  {key : Key}

/-- a length in memory need not be dirty while it is about to be written -/
theorem Coherent.owe (h : Coherent S L [] x t) (key : Key) (known : ∃ n, x.lengths[key]? = some n) :
    Coherent S L [key] (x.clean key) t := by
  have dirty (k : Key) : k ∈ (x.clean key).dirty ↔ key ≠ k ∧ k ∈ x.dirty := by simp [CatalogState.clean]
  refine ⟨fun k hs hk => ?_, h.shadow, fun k hs hk ho => ?_⟩
  · rcases hk with hk | hk
    · exact h.kept k hs (.inl ((dirty k).1 hk).2)
    · obtain rfl : k = key := List.mem_singleton.1 hk
      exact known
  · have other : key ≠ k := fun e => ho (List.mem_singleton.2 e.symm)
    exact h.clean k hs (fun hd => hk ((dirty k).2 ⟨other, hd⟩)) List.not_mem_nil

theorem Coherent.forget (h : Coherent S L [] x t) (key : Key) :
    Coherent S (Function.update L key none) [] (x.forget key) (forgotten t key) := by
  have dirty (k : Key) : k ∈ (x.forget key).dirty ↔ key ≠ k ∧ k ∈ x.dirty := by simp [CatalogState.forget]
  have lengths (k : Key) : (x.forget key).lengths[k]? = if key = k then none else x.lengths[k]? := by
    simp [CatalogState.forget, Std.ExtTreeMap.getElem?_erase]
  refine ⟨fun k hs hk => ?_, fun k n hs hk => ?_, fun k hs hk _ => ?_⟩
  · obtain ⟨other, hd⟩ := (dirty k).1 (hk.resolve_right List.not_mem_nil)
    rw [lengths, if_neg other]
    exact h.kept k hs (.inl hd)
  · rw [lengths] at hk
    split_ifs at hk with other
    rw [Function.update_of_ne (Ne.symm other)]
    exact h.shadow k n hs hk
  · rw [get_forgotten]
    split_ifs with same
    · rw [same, Function.update_self]
      rfl
    · rw [Function.update_of_ne (Ne.symm same)]
      exact h.clean k hs (fun hd => hk ((dirty k).2 ⟨same, hd⟩)) List.not_mem_nil

theorem Orderly.forget (h : Orderly U x t) (used : U key) : Orderly U (x.forget key) (forgotten t key) := by
  refine ⟨fun k hk => h.dirty k (Std.ExtTreeSet.mem_of_mem_erase hk), fun k col v found => ?_, fun apart col v => ?_⟩
  · rw [get_forgotten] at found
    split_ifs at found
    exact h.recorded k col v found
  have written (k : Key) : ((forgotten t key).get (lengthRow k) lengthColumn).isSome ↔
      key ≠ k ∧ (t.get (lengthRow k) lengthColumn).isSome := by
    rw [get_forgotten]
    by_cases e : key = k <;> simp [e]
  simp only [get_forgotten_listing, written]
  split_ifs with here
  · refine iff_of_false (by rintro ⟨⟩) fun hk => ?_
    obtain ⟨k, ⟨other, there⟩, column, _⟩ := hk
    obtain ⟨cell, found⟩ := Option.isSome_iff_exists.1 there
    exact absurd (apart key k used (h.recorded k _ cell found).2 (here.trans column.symm)) other
  · rw [h.listed apart]
    constructor
    · intro hk
      obtain ⟨k, there, column, e⟩ := hk
      exact ⟨k, ⟨fun same => here (same ▸ column), there⟩, column, e⟩
    · intro hk
      obtain ⟨k, ⟨_, there⟩, column, e⟩ := hk
      exact ⟨k, there, column, e⟩

end Catalog

/-! ## Calls -/

variable {σ ρ : Type}

/-- a catalog and its rows stand for the lengths `m`, and the rows are in order for the files in use -/
structure Layer.Indexes (v : Layer CatalogState ρ) (U : Key → Prop) (m : Catalog.Index) (r : ρ) : Prop where
  records : v.Records (fun _ => True) (m[·]?) r
  orderly : Catalog.Orderly U v.held v.beneath

/-- a file is there if its length is dirty or written -/
theorem Layer.Records.mem_iff {v : Layer CatalogState ρ} {m : Catalog.Index} {r : ρ} {key : Key}
    (h : v.Records (fun _ => True) (m[·]?) r) :
    key ∈ m ↔ key ∈ v.held.dirty ∨ (v.beneath.get (Catalog.lengthRow key) Catalog.lengthColumn).isSome := by
  rw [Std.ExtTreeMap.mem_iff_isSome_getElem?]
  by_cases dirty : key ∈ v.held.dirty
  · obtain ⟨n, held⟩ := h.coherent.kept key trivial (.inl dirty)
    simp [dirty, h.coherent.shadow key n trivial held]
  · rw [h.coherent.clean key trivial dirty List.not_mem_nil]
    simp [dirty]

namespace Layer.Indexes

variable {v : Layer CatalogState ρ} {U : Key → Prop} {m : Catalog.Index} {r : ρ} {key : Key}

/-- a file that is there is in use -/
theorem used (h : v.Indexes U m r) (there : key ∈ m) : U key := by
  rcases h.records.mem_iff.1 there with dirty | written
  · exact h.orderly.dirty key dirty
  · obtain ⟨cell, found⟩ := Option.isSome_iff_exists.1 written
    exact (h.orderly.recorded key _ cell found).2

/-- a length that is set is dirty -/
theorem set (h : v.Indexes U m r) (used : U key) (n : UInt64) :
    Layer.Indexes { v with held := (v.held.setLength key n).markDirty key } U (m.insert key n) r := by
  refine ⟨⟨?_, h.records.rest⟩, h.orderly.setLength used n⟩
  rw [Catalog.Index.getElem?_insert_eq_update]
  exact h.records.coherent.setLength key n

/-- a length that is set and written at once is not dirty -/
theorem persisted (h : v.Indexes U m r) (used : U key) (n : UInt64) :
    Layer.Indexes { v with
      held := (v.held.setLength key n).clean key
      beneath := Catalog.persisted v.beneath key n } U (m.insert key n) r := by
  have held : (((v.held.setLength key n).markDirty key).clean key).lengths[key]? = some n := by
    rw [CatalogState.clean, CatalogState.lengths_setLength, if_pos rfl]
  have paid := ((h.set used n).records.coherent.owe key ⟨n, by rw [CatalogState.lengths_setLength, if_pos rfl]⟩).pay held
  rw [CatalogState.clean_markDirty] at paid
  exact ⟨⟨paid, h.records.rest⟩, (h.orderly.persisted used n).congr fun _ => Std.ExtTreeSet.mem_of_mem_erase⟩

/-- a file that is forgotten and removed from the rows is not there -/
theorem forgotten (h : v.Indexes U m r) (used : U key) :
    Layer.Indexes { v with
      held := v.held.forget key
      beneath := Catalog.forgotten v.beneath key } U (m.erase key) r := by
  refine ⟨⟨?_, h.records.rest⟩, h.orderly.forget used⟩
  rw [Catalog.Index.getElem?_erase_eq_update]
  exact h.records.coherent.forget key

end Layer.Indexes

/-- listing files changes nothing, whatever the entries of the listing are -/
theorem Layered.keys_keeps {c : Catalog (Run σ)} {R : σ → Layer CatalogState ρ → Prop} {scan : List Bytes → List Bytes → Prop}
    {failing : Call → Prop} (laws : Layered c.rows c.state R scan failing) (v : Layer CatalogState ρ) :
    Ends R c.keys v fun _ w => w = v := by
  have entries (cells : List Bytes) : Ends R (Catalog.listed cells : Run σ (List Key)) v fun _ w => w = v := by
    induction cells with
    | nil => exact ends_pure [] rfl
    | cons cell rest ih =>
      rw [Catalog.listed]
      cases Utf8.decode cell with
      | error fault => exact ends_throw _ rfl
      | ok entry => exact ih.then_pure
  refine Ends.bind (Ends.mono (Layered.beneath ((laws.inner _ _).values _ _)) fun o w hw => ?_)
  rcases hw with ⟨cells, rfl, _, ⟨_, rfl⟩, rfl⟩ | ⟨_, ⟨e, rfl⟩, rfl⟩
  · refine .inl ⟨cells, rfl, Ends.bind (Ends.mono (entries cells) fun o w hw => ?_)⟩
    obtain rfl := hw
    cases o with
    | error e => exact .inr ⟨e, rfl, rfl⟩
    | ok written => exact .inl ⟨written, rfl, (laws.read w).next (ends_pure _ rfl)⟩
  · exact .inr ⟨e, rfl, rfl⟩

namespace Catalog.Laws

variable {c : Catalog (Run σ)} {R : σ → Layer CatalogState ρ → Prop} {scan : List Bytes → List Bytes → Prop} {U : Key → Prop}
  {m : Catalog.Index} {r : ρ} {v : Layer CatalogState ρ} {key : Key}

/-- the length of a file that is there is found, and nothing is written -/
theorem find_records (laws : c.Laws R scan) (h : v.Records (fun _ => True) (m[·]?) r) (key : Key) :
    Ends R (c.length key) v fun o w => o = m.find key ∧ w.Records (fun _ => True) (m[·]?) r ∧ w.beneath = v.beneath ∧
      w.held.dirty = v.held.dirty := by
  rw [Catalog.Index.find]
  cases there : m[key]? with
  | none =>
    refine Ends.mono (laws.length_none h trivial there) ?_
    intro o w hw
    obtain ⟨rfl, rfl⟩ := hw
    exact ⟨rfl, h, rfl, rfl⟩
  | some n =>
    refine Ends.mono (laws.length_held h trivial there) ?_
    intro o w hw
    obtain ⟨_, rfl, rfl, records, _, beneath, dirty⟩ := hw
    exact ⟨rfl, records, beneath, dirty⟩

theorem find_held (laws : c.Laws R scan) (h : v.Indexes U m r) (key : Key) :
    Ends R (c.length key) v fun o w => (w.Indexes U m r ∧ w.beneath = v.beneath) ∧ o = m.find key := by
  refine Ends.mono (laws.find_records h.records key) fun o w hw => ?_
  obtain ⟨rfl, records, beneath, dirty⟩ := hw
  refine ⟨⟨⟨records, ?_⟩, beneath⟩, rfl⟩
  rw [beneath]
  exact h.orderly.congr fun k hk => dirty ▸ hk

theorem find (laws : c.Laws R scan) (h : v.Indexes U m r) (key : Key) :
    Ends R (c.length key) v fun o w => w.Indexes U m r ∧ o = m.find key :=
  Ends.mono (laws.find_held h key) fun _ _ hw => ⟨hw.1.1, hw.2⟩

/-- a file is there if its length is held in memory or written -/
theorem has_recorded (laws : c.Laws R scan) (h : v.Records (fun _ => True) (m[·]?) r) (key : Key)
    (recorded : ∀ col u, v.beneath.get (lengthRow key) col = some u → col = lengthColumn) :
    Yields R (c.has key) v fun yes w => yes = decide (key ∈ m) ∧ w = v := by
  refine (laws.read v).next ?_
  split_ifs with held
  · have there : key ∈ m := by
      rw [Std.ExtTreeMap.contains_iff_mem, Std.ExtTreeMap.mem_iff_isSome_getElem?] at held
      obtain ⟨n, hn⟩ := Option.isSome_iff_exists.1 held
      rw [Std.ExtTreeMap.mem_iff_isSome_getElem?, h.coherent.shadow key n trivial hn]
      rfl
    exact yields_pure true ⟨(decide_eq_true there).symm, rfl⟩
  · refine ((Layered.beneath ((laws.inner _ _).hasKey _ _)).yields id).mono ?_
    intro _ _ hw
    obtain ⟨_, ⟨rfl, rfl⟩, rfl⟩ := hw
    have clean : key ∉ v.held.dirty := fun dirty => by
      obtain ⟨n, hn⟩ := h.coherent.kept key trivial (.inl dirty)
      rw [Std.ExtTreeMap.contains_iff_mem, Std.ExtTreeMap.mem_iff_isSome_getElem?, hn] at held
      exact held rfl
    refine ⟨?_, rfl⟩
    rw [hasKey_lengthRow recorded, Bool.eq_iff_iff, decide_eq_true_iff, h.mem_iff]
    exact ⟨.inr, fun there => there.resolve_left clean⟩

theorem has (laws : c.Laws R scan) (h : v.Indexes U m r) (key : Key) :
    Yields R (c.has key) v fun yes w => yes = decide (key ∈ m) ∧ w = v :=
  laws.has_recorded h.records key fun col u found => (h.orderly.recorded key col u found).1

/-- a length is set, written at once or not -/
theorem record (laws : c.Laws R scan) (h : v.Indexes U m r) (used : U key) (n : UInt64) (commit : Bool) :
    Yields R (c.setLength key n commit) v fun _ w => w.Indexes U (m.insert key n) r := by
  cases commit with
  | false =>
    refine (laws.setLength_held key n v).mono ?_
    intro _ _ hw
    subst hw
    exact h.set used n
  | true =>
    refine (laws.setLength_written key n v).mono ?_
    intro _ _ hw
    subst hw
    exact h.persisted used n

/-- a flush changes no length, and leaves none that is dirty -/
theorem flushed (laws : c.Laws R scan) (h : v.Indexes U m r) :
    Yields R (c.flush false) v fun _ w => w.Indexes U m r ∧ ∀ key, key ∉ w.held.dirty := by
  refine (laws.flush h.records).mono ?_
  intro _ w hw
  obtain ⟨records, clean, order⟩ := hw
  exact ⟨⟨records, order U h.orderly⟩, clean⟩

/-- deleting a file removes its length row and its entry in the listing -/
theorem delete_forgotten (laws : c.Laws R scan) (trims : ∀ x r, c.rows.Trims (fun s t => R s ⟨x, t, r⟩) never) (key : Key)
    (v : Layer CatalogState ρ) : Yields R (c.delete key) v fun _ w =>
      w = { v with held := v.held.forget key, beneath := forgotten v.beneath key } := by
  refine (laws.modify _ v).step ?_
  refine Yields.bind ((Layered.beneath ((laws.inner _ _).delete _ _)).yields id) ?_
  intro _ _ hw
  obtain ⟨_, rfl, rfl⟩ := hw
  refine ((Layered.beneath (trims _ _ listing (listingColumn key) _)).yields id).mono ?_
  intro _ _ hw
  obtain ⟨_, rfl, rfl⟩ := hw
  rfl

/-- a file that is deleted is not there -/
theorem delete (laws : c.Laws R scan) (trims : ∀ x r, c.rows.Trims (fun s t => R s ⟨x, t, r⟩) never) (h : v.Indexes U m r)
    (used : U key) : Yields R (c.delete key) v fun _ w => w.Indexes U (m.erase key) r := by
  refine (laws.delete_forgotten trims key v).mono ?_
  intro _ _ hw
  subst hw
  exact h.forgotten used

/-- files are listed in ascending order: those that are dirty, and those that have their entry -/
theorem keys_named (laws : c.Laws R Eq) (h : Named U v.held v.beneath) :
    Yields R c.keys v fun names w => (∀ k, k ∈ names ↔ Lists v.held v.beneath k) ∧
      names.Pairwise (compare · · = .lt) ∧ w = v := by
  obtain ⟨written, hwritten⟩ : ∃ written : List Key,
      written.map (fun key => Utf8.encode (lengthRow key)) = v.beneath.values listing := by
    refine (Set.ext_iff.1 (Set.range_list_map _) _).2 fun cell hc => ?_
    obtain ⟨col, found⟩ := Table.mem_values.1 hc
    obtain ⟨key, _, _, e⟩ := h.entries col cell found
    exact ⟨key, e⟩
  have mem_written (k : Key) :
      k ∈ written ↔ v.beneath.get listing (listingColumn k) = some (Utf8.encode (lengthRow k)) := by
    rw [← List.mem_map_of_injective encode_lengthRow_injective, hwritten, Table.mem_values]
    refine ⟨fun hc => ?_, fun found => ⟨_, found⟩⟩
    obtain ⟨col, found⟩ := hc
    obtain ⟨key, _, rfl, e⟩ := h.entries col _ found
    obtain rfl : key = k := encode_lengthRow_injective e
    exact found
  refine Yields.bind ((Layered.beneath ((laws.inner _ _).values listing _)).yields id) ?_
  intro _ _ hw
  obtain ⟨_, ⟨rfl, rfl⟩, rfl⟩ := hw
  rw [← hwritten, listed_entries, pure_bind]
  refine (laws.read v).next ?_
  refine yields_pure _ ⟨fun k => ?_, Std.ExtTreeSet.ordered_toList, rfl⟩
  rw [Std.ExtTreeSet.mem_toList, Std.ExtTreeSet.mem_insertMany_list, List.contains_iff_mem, List.mem_append, mem_written,
    Std.ExtTreeSet.mem_toList, Lists]
  simp [or_comm]

/-- where just the files of the map are dirty or have their entry, they are listed -/
theorem keys_of_lists (laws : c.Laws R Eq) (h : Named U v.held v.beneath)
    (all : ∀ k, Lists v.held v.beneath k ↔ k ∈ m) : Yields R c.keys v fun names w => names = m.keys ∧ w = v := by
  refine (laws.keys_named h).mono fun names _ hw => ?_
  obtain ⟨told, ascending, rfl⟩ := hw
  refine ⟨eq_of_ascending (fun key => ?_) (fun a b c => Std.TransCmp.lt_trans) ascending Std.ExtTreeMap.ordered_keys
    fun key => ?_, rfl⟩
  · rw [Std.ReflOrd.compare_self]
    rintro ⟨⟩
  · rw [told, all, Std.ExtTreeMap.mem_keys]

/-- **All files are listed**, each once, in ascending order, if no two files in use share a column of the listing. -/
theorem keys (laws : c.Laws R Eq) (apart : Apart U) (h : v.Indexes U m r) :
    Yields R c.keys v fun names w => names = m.keys ∧ w = v := by
  have listed := h.orderly.listed apart
  have named : Named U v.held v.beneath := by
    refine ⟨h.orderly.dirty, fun col cell found => ?_⟩
    obtain ⟨key, there, column, e⟩ := (listed col cell).1 found
    exact ⟨key, h.used (h.records.mem_iff.2 (.inr there)), column, e⟩
  refine laws.keys_of_lists named fun k => ?_
  rw [Lists, h.records.mem_iff, listed]
  refine or_congr_right ⟨fun hk => ?_, fun there => ⟨k, there, rfl, rfl⟩⟩
  obtain ⟨key, there, _, e⟩ := hk
  exact encode_lengthRow_injective e ▸ there

end Catalog.Laws

end RowFiles
