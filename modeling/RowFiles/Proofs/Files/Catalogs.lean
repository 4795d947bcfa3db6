/-
What a catalog knows of files. In memory and in its rows it stands for one map of lengths: the one that has taken every
length set, at once.

`Catalog.Coherent` says so of the files of which `S` holds; of others nothing need be known. It is for lengths what
`Coherent` is for the cells of a cache. `Catalog.Laws.length`, `Catalog.Laws.setLength` and `Catalog.Laws.flush` say of
the calls what they answer and that they keep it.

`Catalog.Orderly` says that the rows hold nothing but lengths of files in use and, if no two of these share a column of
the listing, the listing of the lengths that are written. The same calls keep this too.
-/
import Mathlib.Logic.Function.Basic
import RowFiles.Files.Catalog
import RowFiles.Proofs.Store.Layers

namespace RowFiles

open Run

namespace CatalogState

variable (x : CatalogState) {key : Key} (n : UInt64)

theorem lengths_fill (absent : x.lengths[key]? = none) (k : Key) :
    (x.fill key n).lengths[k]? = if key = k then some n else x.lengths[k]? := by
  have new : key ∉ x.lengths := fun hm => by
    rw [Std.ExtTreeMap.mem_iff_isSome_getElem?, absent] at hm
    cases hm
  rw [fill, Std.ExtTreeMap.getElem?_insertIfNew]
  by_cases e : key = k
  · subst e
    simp [new]
  · simp [e]

theorem lengths_setLength (k : Key) :
    ((x.setLength key n).markDirty key).lengths[k]? = if key = k then some n else x.lengths[k]? := by
  rw [markDirty, setLength, Std.ExtTreeMap.getElem?_insert]
  simp

theorem mem_dirty_setLength (k : Key) : k ∈ ((x.setLength key n).markDirty key).dirty ↔ key = k ∨ k ∈ x.dirty := by
  simp [markDirty, setLength, Std.ExtTreeSet.mem_insert]

end CatalogState

namespace Catalog

/-! ## Rows -/

theorem lengthRow_toList (key : Key) : (lengthRow key).toList = keyHead.toList ++ key.toList := String.toList_append

/-- files have length rows of their own -/
theorem lengthRow_injective : Function.Injective lengthRow := fun a b h => by
  have lists := congrArg String.toList h
  rw [lengthRow_toList, lengthRow_toList] at lists
  exact String.toList_inj.1 (List.append_cancel_left lists)

/-- the listing is no file's length row -/
theorem lengthRow_ne_listing (key : Key) : lengthRow key ≠ listing := fun h => by
  have heads := congrArg (fun s => s.toList.take 14) h
  simp only [lengthRow_toList] at heads
  rw [List.take_append_of_le_length (by decide)] at heads
  exact absurd heads (by decide)

/-- the table after a file's length and its entry in the listing are written -/
def persisted (t : Table Column) (key : Key) (n : UInt64) : Table Column :=
  (t.put (lengthRow key) lengthColumn (Bytes.ofUInt64 n)).put listing (listingColumn key) (Utf8.encode (lengthRow key))

/-! ## Lengths in memory and in rows -/

/-- a catalog's state and the table beneath stand for the lengths `L`; those in `owed` are about to be written beneath -/
structure Coherent (S : Key → Prop) (L : Key → Option UInt64) (owed : List Key) (x : CatalogState) (t : Table Column) :
    Prop where
  kept : ∀ key, S key → key ∈ x.dirty ∨ key ∈ owed → ∃ n, x.lengths[key]? = some n
  shadow : ∀ key n, S key → x.lengths[key]? = some n → L key = some n
  clean : ∀ key, S key → key ∉ x.dirty → key ∉ owed →
    t.get (lengthRow key) lengthColumn = (L key).map Bytes.ofUInt64

namespace Coherent

variable {S : Key → Prop} {L : Key → Option UInt64} {owed : List Key} {x : CatalogState} {t : Table Column} {key : Key}

/-- a length that is not in memory is in the file's row, if there is one -/
theorem get_of_absent (h : Coherent S L [] x t) (hs : S key) (absent : x.lengths[key]? = none) :
    t.get (lengthRow key) lengthColumn = (L key).map Bytes.ofUInt64 := by
  refine h.clean key hs (fun dirty => ?_) List.not_mem_nil
  obtain ⟨n, hn⟩ := h.kept key hs (.inl dirty)
  rw [absent] at hn
  cases hn

/-- once no length is dirty, all are in their rows -/
theorem get_of_clean (h : Coherent S L [] x t) (hs : S key) (none : ∀ k, k ∉ x.dirty) :
    t.get (lengthRow key) lengthColumn = (L key).map Bytes.ofUInt64 :=
  h.clean key hs (none key) List.not_mem_nil

theorem fill (h : Coherent S L [] x t) {n : UInt64} (absent : x.lengths[key]? = none) (found : S key → L key = some n) :
    Coherent S L [] (x.fill key n) t := by
  refine ⟨fun k hs hk => ?_, fun k m hs hk => ?_, h.clean⟩
  · rw [x.lengths_fill n absent]
    split_ifs
    · exact ⟨n, rfl⟩
    · exact h.kept k hs hk
  · rw [x.lengths_fill n absent] at hk
    split_ifs at hk with e
    · subst e
      rw [found hs, hk]
    · exact h.shadow k m hs hk

theorem setLength (h : Coherent S L [] x t) (key : Key) (n : UInt64) :
    Coherent S (Function.update L key (some n)) [] ((x.setLength key n).markDirty key) t := by
  refine ⟨fun k hs hk => ?_, fun k m hs hk => ?_, fun k hs hk ho => ?_⟩
  · rw [x.lengths_setLength]
    split_ifs with e
    · exact ⟨n, rfl⟩
    · rw [x.mem_dirty_setLength] at hk
      exact h.kept k hs (.inl ((hk.resolve_right List.not_mem_nil).resolve_left e))
  · rw [x.lengths_setLength] at hk
    split_ifs at hk with e
    · rw [← e, Function.update_self, hk]
    · rw [Function.update_of_ne (Ne.symm e)]
      exact h.shadow k m hs hk
  · rw [x.mem_dirty_setLength, not_or] at hk
    rw [Function.update_of_ne (Ne.symm hk.1)]
    exact h.clean k hs hk.2 ho

theorem owe_all (h : Coherent S L [] x t) : Coherent S L x.dirty.toList { x with dirty := ∅ } t := by
  refine ⟨fun k hs hk => ?_, h.shadow, fun k hs _ ho => ?_⟩
  · rcases hk with hk | hk
    · exact absurd hk Std.ExtTreeSet.not_mem_empty
    · exact h.kept k hs (.inl (Std.ExtTreeSet.mem_toList.1 hk))
  · exact h.clean k hs (mt Std.ExtTreeSet.mem_toList.2 ho) List.not_mem_nil

theorem reorder {owed' : List Key} (h : Coherent S L owed x t) (ho : ∀ k, k ∈ owed' ↔ k ∈ owed) :
    Coherent S L owed' x t :=
  ⟨fun k hs hk => h.kept k hs (hk.imp id (ho k).1), h.shadow, fun k hs hk hn => h.clean k hs hk (mt (ho k).2 hn)⟩

/-- writing an owed length and the file's entry in the listing pays for it -/
theorem pay {n : UInt64} (h : Coherent S L (key :: owed) x t) (hn : x.lengths[key]? = some n) :
    Coherent S L owed x (persisted t key n) := by
  refine ⟨fun k hs hk => h.kept k hs (hk.imp id (List.mem_cons_of_mem key)), h.shadow, fun k hs hk ho => ?_⟩
  rw [persisted, Table.get_put, if_neg fun e => lengthRow_ne_listing k e.1.symm, Table.get_put]
  split_ifs with e
  · obtain rfl : key = k := lengthRow_injective e.1
    rw [h.shadow key n hs hn]
    rfl
  · refine h.clean k hs hk fun hm => ?_
    rcases List.mem_cons.1 hm with rfl | hm
    · exact e ⟨rfl, rfl⟩
    · exact ho hm

/-- nothing is owed for a file of which no length is known -/
theorem skip (h : Coherent S L (key :: owed) x t) (unknown : x.lengths[key]? = none) : Coherent S L owed x t := by
  refine ⟨fun k hs hk => h.kept k hs (hk.imp id (List.mem_cons_of_mem key)), h.shadow, fun k hs hk ho => ?_⟩
  refine h.clean k hs hk fun hm => ?_
  rcases List.mem_cons.1 hm with rfl | hm
  · obtain ⟨n, hn⟩ := h.kept k hs (.inr List.mem_cons_self)
    rw [unknown] at hn
    cases hn
  · exact ho hm

end Coherent

/-! ## The listing -/

/-- no two files in use share a column of the listing -/
def Apart (U : Key → Prop) : Prop := ∀ a b, U a → U b → listingColumn a = listingColumn b → a = b

/-- names that include those in use are apart if no two of them share a column of the listing -/
theorem Apart.of_nodup {U : Key → Prop} (names : List Key) (all : ∀ k, U k → k ∈ names)
    (nodup : (names.map listingColumn).Nodup) : Apart U :=
  fun a b ha hb same => List.inj_on_of_nodup_map nodup (all a ha) (all b hb) same

/-- nothing but lengths of files in use is dirty or written, and the listing names those that are written -/
structure Orderly (U : Key → Prop) (x : CatalogState) (t : Table Column) : Prop where
  dirty : ∀ key ∈ x.dirty, U key
  recorded : ∀ key col v, t.get (lengthRow key) col = some v → col = lengthColumn ∧ U key
  listed : Apart U → ∀ col v, t.get listing col = some v ↔
    ∃ key, (t.get (lengthRow key) lengthColumn).isSome ∧ listingColumn key = col ∧ Utf8.encode (lengthRow key) = v

theorem get_persisted (t : Table Column) (key key' : Key) (n : UInt64) (col : Column) :
    (persisted t key n).get (lengthRow key') col =
      if key = key' ∧ lengthColumn = col then some (Bytes.ofUInt64 n) else t.get (lengthRow key') col := by
  rw [persisted, Table.get_put, if_neg fun e => lengthRow_ne_listing key' e.1.symm, Table.get_put]
  simp only [lengthRow_injective.eq_iff]

theorem get_persisted_listing (t : Table Column) (key : Key) (n : UInt64) (col : Column) :
    (persisted t key n).get listing col =
      if listingColumn key = col then some (Utf8.encode (lengthRow key)) else t.get listing col := by
  have other : ¬ (lengthRow key = listing ∧ lengthColumn = col) := fun e => lengthRow_ne_listing key e.1
  simp only [persisted, Table.get_put, if_neg other, true_and]

namespace Orderly

variable {U : Key → Prop} {x y : CatalogState} {t : Table Column} {key : Key}

/-- which lengths are held in memory does not matter -/
theorem congr (h : Orderly U x t) (hd : ∀ k ∈ y.dirty, k ∈ x.dirty) : Orderly U y t :=
  ⟨fun k hk => h.dirty k (hd k hk), h.recorded, h.listed⟩

theorem setLength (h : Orderly U x t) (used : U key) (n : UInt64) :
    Orderly U ((x.setLength key n).markDirty key) t := by
  refine ⟨fun k hk => ?_, h.recorded, h.listed⟩
  rcases (x.mem_dirty_setLength n k).1 hk with rfl | hk
  · exact used
  · exact h.dirty k hk

/-- a length is written and listed -/
theorem persisted (h : Orderly U x t) (used : U key) (n : UInt64) : Orderly U x (persisted t key n) := by
  refine ⟨h.dirty, fun k col v found => ?_, fun apart col v => ?_⟩
  · rw [get_persisted] at found
    split_ifs at found with e
    · exact ⟨e.2.symm, e.1 ▸ used⟩
    · exact h.recorded k col v found
  have written (k : Key) : ((Catalog.persisted t key n).get (lengthRow k) lengthColumn).isSome ↔
      key = k ∨ (t.get (lengthRow k) lengthColumn).isSome := by
    rw [get_persisted]
    by_cases e : key = k <;> simp [e]
  simp only [get_persisted_listing, written]
  split_ifs with here
  · constructor
    · intro e
      exact ⟨key, .inl rfl, here, Option.some.inj e⟩
    · intro hk
      obtain ⟨k, there, column, rfl⟩ := hk
      rcases there with rfl | there
      · rfl
      · -- another file at the same column would not be apart from this one
        obtain ⟨cell, found⟩ := Option.isSome_iff_exists.1 there
        rw [apart key k used (h.recorded k _ cell found).2 (here.trans column.symm)]
  · rw [h.listed apart]
    constructor
    · intro hk
      obtain ⟨k, there, column, e⟩ := hk
      exact ⟨k, .inr there, column, e⟩
    · intro hk
      obtain ⟨k, rfl | there, column, e⟩ := hk
      · exact absurd column here
      · exact ⟨k, there, column, e⟩

end Orderly

end Catalog

/-! ## Calls -/

variable {σ ρ : Type}

/-- a catalog and its rows stand for the lengths `L` -/
structure Layer.Records (v : Layer CatalogState ρ) (S : Key → Prop) (L : Key → Option UInt64) (r : ρ) : Prop where
  coherent : Catalog.Coherent S L [] v.held v.beneath
  rest : v.rest = r

/-- order in the rows is kept, if the file is in use -/
def Layer.KeepsOrder (key : Key) (v w : Layer CatalogState ρ) : Prop :=
  ∀ U, U key → Catalog.Orderly U v.held v.beneath → Catalog.Orderly U w.held w.beneath

/-- what a catalog builds on -/
structure Catalog.Laws (c : Catalog (Run σ)) (R : σ → Layer CatalogState ρ → Prop)
    (scan : List Bytes → List Bytes → Prop) : Prop extends Layered c.rows c.state R scan never where
  order : ∀ keys v, Yields R (c.order keys) v fun ks w => ks.Perm keys ∧ w = v

namespace Layered

variable {c : Catalog (Run σ)} {R : σ → Layer CatalogState ρ → Prop} {scan : List Bytes → List Bytes → Prop}
  {failing : Call → Prop} {v : Layer CatalogState ρ} {key : Key}

/-- a length that is held in memory is not looked up -/
theorem length_known (laws : Layered c.rows c.state R scan failing) {n : UInt64} (known : v.held.lengths[key]? = some n) :
    Yields R (c.length key) v fun a w => a = n ∧ w = v := by
  refine (laws.read v).next ?_
  rw [known]
  exact yields_pure n ⟨rfl, rfl⟩

/-- setting a length without committing it stays in memory -/
theorem setLength_held (laws : Layered c.rows c.state R scan failing) (key : Key) (n : UInt64) (v : Layer CatalogState ρ) :
    Yields R (c.setLength key n false) v fun _ w => w = { v with held := (v.held.setLength key n).markDirty key } := by
  refine (laws.modify _ v).step ?_
  exact laws.modify _ _

end Layered

namespace Catalog.Laws

variable {c : Catalog (Run σ)} {R : σ → Layer CatalogState ρ → Prop} {scan : List Bytes → List Bytes → Prop}
  {S : Key → Prop} {L : Key → Option UInt64} {r : ρ} {v : Layer CatalogState ρ} {key : Key}

/-- a file of which no length is held in memory or written is not there -/
theorem length_unknown (laws : c.Laws R scan) (unknown : v.held.lengths[key]? = none)
    (absent : v.beneath.get (lengthRow key) lengthColumn = none) :
    Ends R (c.length key) v fun o w => o = .error (.notFound key) ∧ w = v := by
  refine (laws.read v).next ?_
  rw [unknown]
  refine Yields.ends ((Layered.beneath ((laws.inner _ _).get _ _ _)).yields id) ?_
  intro _ _ hw
  obtain ⟨_, ⟨rfl, rfl⟩, rfl⟩ := hw
  rw [absent]
  exact ends_throw _ ⟨rfl, rfl⟩

/-- a length that is found is held in memory from then on -/
theorem length_fills (laws : c.Laws R scan) (key : Key) (v : Layer CatalogState ρ) :
    Ends R (c.length key) v fun o w => ∃ x, w = { v with held := x } ∧ ∀ n, o = .ok n → x.lengths[key]? = some n := by
  cases known : v.held.lengths[key]? with
  | some n =>
    refine Ends.mono (laws.length_known known) fun o w hw => ?_
    obtain ⟨_, rfl, rfl, rfl⟩ := hw
    exact ⟨w.held, rfl, fun m e => by cases e; exact known⟩
  | none =>
    refine (laws.read v).next ?_
    rw [known]
    refine Yields.ends ((Layered.beneath ((laws.inner _ _).get _ _ _)).yields id) ?_
    intro _ _ hw
    obtain ⟨_, ⟨rfl, rfl⟩, rfl⟩ := hw
    cases v.beneath.get (lengthRow key) lengthColumn with
    | none => exact ends_throw _ ⟨v.held, rfl, nofun⟩
    | some cell =>
      simp only
      split_ifs with short
      · exact Ends.bind (ends_throw _ (.inr ⟨_, rfl, v.held, rfl, nofun⟩))
      · refine (laws.modify _ _).step ?_
        refine (laws.read _).next ?_
        have filled := v.held.lengths_fill (Bytes.toUInt64 cell) known key
        rw [if_pos rfl] at filled
        refine ends_pure _ ⟨_, rfl, fun n e => ?_⟩
        cases e
        rw [Std.ExtTreeMap.getD_eq_getD_getElem?, filled]
        rfl

/-- a file that is not there has no length -/
theorem length_none (laws : c.Laws R scan) (h : v.Records S L r) (hs : S key) (hn : L key = none) :
    Ends R (c.length key) v fun o w => o = .error (.notFound key) ∧ w = v := by
  have unknown : v.held.lengths[key]? = none := by
    cases e : v.held.lengths[key]? with
    | none => rfl
    | some n => rw [h.coherent.shadow key n hs e] at hn; cases hn
  refine laws.length_unknown unknown ?_
  rw [h.coherent.get_of_absent hs unknown, hn]
  rfl

/-- the length of a file is the one last set, and nothing is written -/
theorem length_held (laws : c.Laws R scan) (h : v.Records S L r) (hs : S key) {n : UInt64} (hn : L key = some n) :
    Yields R (c.length key) v fun m w =>
      m = n ∧ w.Records S L r ∧ v.KeepsOrder key w ∧ w.beneath = v.beneath ∧ w.held.dirty = v.held.dirty := by
  refine (laws.read v).next ?_
  cases e : v.held.lengths[key]? with
  | some m =>
    have same := h.coherent.shadow key m hs e
    rw [hn] at same
    exact yields_pure m ⟨(Option.some.inj same).symm, h, fun _ _ => id, rfl, rfl⟩
  | none =>
    have there : v.beneath.get (lengthRow key) lengthColumn = some (Bytes.ofUInt64 n) := by
      rw [h.coherent.get_of_absent hs e, hn]
      rfl
    refine Yields.bind ((Layered.beneath ((laws.inner _ _).get _ _ _)).yields id) ?_
    intro _ _ hw
    obtain ⟨_, ⟨rfl, rfl⟩, rfl⟩ := hw
    rw [there]
    have long : ¬ (Bytes.ofUInt64 n).length < 8 := by simp
    simp only [if_neg long, Bytes.toUInt64_ofUInt64]
    refine (laws.modify _ _).step ?_
    refine (laws.read _).next ?_
    have filled := h.coherent.fill e fun _ => hn
    refine yields_pure _ ⟨?_, ⟨filled, h.rest⟩, fun _ _ orderly => orderly.congr fun _ => id, rfl, rfl⟩
    rw [Std.ExtTreeMap.getD_eq_getD_getElem?, v.held.lengths_fill n e, if_pos rfl]
    rfl

theorem length_some (laws : c.Laws R scan) (h : v.Records S L r) (hs : S key) {n : UInt64} (hn : L key = some n) :
    Yields R (c.length key) v fun m w => m = n ∧ w.Records S L r ∧ v.KeepsOrder key w :=
  (laws.length_held h hs hn).mono fun _ _ hw => ⟨hw.1, hw.2.1, hw.2.2.1⟩

theorem setLength (laws : c.Laws R scan) (h : v.Records S L r) (key : Key) (n : UInt64) :
    Yields R (c.setLength key n false) v fun _ w =>
      w.Records S (Function.update L key (some n)) r ∧ v.KeepsOrder key w := by
  refine (laws.setLength_held key n v).mono ?_
  intro _ _ hw
  subst hw
  exact ⟨⟨h.coherent.setLength key n, h.rest⟩, fun _ used orderly => orderly.setLength used n⟩

/-- a length and an entry are written -/
theorem persist (laws : c.Laws R scan) (key : Key) (n : UInt64) (v : Layer CatalogState ρ) :
    Yields R (c.persist key n) v fun _ w => w = { v with beneath := persisted v.beneath key n } := by
  refine Yields.bind ((Layered.beneath ((laws.inner _ _).put _ _ _ _)).yields id) ?_
  intro _ _ hw
  obtain ⟨_, rfl, rfl⟩ := hw
  refine ((Layered.beneath ((laws.inner _ _).put _ _ _ _)).yields id).mono ?_
  intro _ _ hw
  obtain ⟨_, rfl, rfl⟩ := hw
  rfl

/-- setting a length and committing it writes it -/
theorem setLength_written (laws : c.Laws R scan) (key : Key) (n : UInt64) (v : Layer CatalogState ρ) :
    Yields R (c.setLength key n true) v fun _ w =>
      w = { v with held := (v.held.setLength key n).clean key, beneath := persisted v.beneath key n } := by
  refine (laws.modify _ v).step ?_
  refine (laws.persist key n _).step ?_
  exact laws.modify _ _

theorem persistAll (laws : c.Laws R scan) (keys : List Key) (v : Layer CatalogState ρ)
    (h : Coherent S L keys v.held v.beneath) :
    Yields R (c.persistAll keys) v fun _ w => w.Records S L v.rest ∧ w.held = v.held ∧
      ∀ U, (∀ k ∈ keys, U k) → Orderly U v.held v.beneath → Orderly U w.held w.beneath := by
  induction keys generalizing v with
  | nil => exact yields_pure () ⟨⟨h, rfl⟩, rfl, fun _ _ => id⟩
  | cons key keys ih =>
    refine (laws.read v).next ?_
    cases e : v.held.lengths[key]? with
    | none =>
      refine (ih v (h.skip e)).mono ?_
      intro _ w hw
      obtain ⟨records, held, order⟩ := hw
      exact ⟨records, held, fun U used => order U fun k hk => used k (List.mem_cons_of_mem key hk)⟩
    | some n =>
      refine (laws.persist key n v).tryCatch.step ?_
      refine (ih { v with beneath := persisted v.beneath key n } (h.pay e)).mono ?_
      intro _ w hw
      obtain ⟨records, held, order⟩ := hw
      refine ⟨records, held, fun U used orderly => ?_⟩
      exact order U (fun k hk => used k (List.mem_cons_of_mem key hk)) (orderly.persisted (used key List.mem_cons_self) n)

/-- a flush writes every dirty length -/
theorem flush (laws : c.Laws R scan) (h : v.Records S L r) :
    Yields R (c.flush false) v fun _ w =>
      w.Records S L r ∧ (∀ key, key ∉ w.held.dirty) ∧
        ∀ U, Orderly U v.held v.beneath → Orderly U w.held w.beneath := by
  obtain ⟨coherent, rfl⟩ := h
  refine (laws.read v).next ?_
  refine (laws.write _ _).step ?_
  refine (laws.order _ _).bind ?_
  intro keys _ hw
  obtain ⟨perm, rfl⟩ := hw
  refine (laws.persistAll keys _ (coherent.owe_all.reorder fun k => perm.mem_iff)).bind ?_
  intro _ w hw
  obtain ⟨records, held, order⟩ := hw
  refine yields_pure () ⟨records, fun key => ?_, fun U orderly => ?_⟩
  · rw [held]
    exact Std.ExtTreeSet.not_mem_empty
  · refine order U (fun k hk => orderly.dirty k ?_) (orderly.congr fun _ hk => absurd hk Std.ExtTreeSet.not_mem_empty)
    exact Std.ExtTreeSet.mem_toList.1 (perm.mem_iff.1 hk)

end Catalog.Laws

end RowFiles
