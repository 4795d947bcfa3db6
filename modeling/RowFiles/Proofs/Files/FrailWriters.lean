/-
Catalogs and writers over rows of which calls may fail, each without effect.

- `Catalog.FrailLaws.flush`: a flush of a catalog that fails leaves every length as it was, in memory or in its row.
- `Writer.FrailLaws.write`: a write that fails leaves the pointer, the checksum and the length. It may leave cells in the
  writer's cache, but no byte below the pointer is changed.
- `Writer.FrailLaws.flush`: a flush that fails leaves what the writer has come to.
-/
import RowFiles.Proofs.Files.Overwrites
import RowFiles.Proofs.Files.Sessions

namespace RowFiles

open Run

variable {σ ρ : Type}

/-- some call may fail -/
def someFails (failing : Call → Prop) : Prop := ∃ q, failing q

theorem not_someFails : ¬ someFails never := fun h => h.choose_spec

/-! ## Catalogs -/

namespace Catalog

namespace Coherent

variable {S : Key → Prop} {L : Key → Option UInt64} {owed : List Key} {x : CatalogState} {t : Table Column} {key : Key}

/-- a new catalog knows what is written -/
theorem new {n : Option UInt64} (written : t.get (lengthRow key) lengthColumn = n.map Bytes.ofUInt64) :
    Coherent (· = key) (fun _ => n) [] {} t := by
  refine ⟨fun k _ dirty => ?_, fun k m _ held => ?_, fun k here _ _ => ?_⟩
  · exact absurd (dirty.resolve_right List.not_mem_nil) Std.ExtTreeSet.not_mem_empty
  · simp at held
  · subst here
    exact written

/-- only the files of which `S` holds matter -/
theorem congr_lengths {M : Key → Option UInt64} (h : Coherent S L owed x t) (same : ∀ k, S k → L k = M k) :
    Coherent S M owed x t :=
  ⟨h.kept, fun k n hs hk => same k hs ▸ h.shadow k n hs hk, fun k hs hk ho => same k hs ▸ h.clean k hs hk ho⟩

/-- a length may be written without its entry in the listing -/
theorem put_length (h : Coherent S L owed x t) {n : UInt64} (hn : x.lengths[key]? = some n) :
    Coherent S L owed x (t.put (lengthRow key) lengthColumn (Bytes.ofUInt64 n)) := by
  refine ⟨h.kept, h.shadow, fun k hs hk ho => ?_⟩
  rw [Table.get_put]
  split_ifs with e
  · obtain rfl : key = k := lengthRow_injective e.1
    rw [h.shadow key n hs hn]
    rfl
  · exact h.clean k hs hk ho

/-- what is still owed is dirty again -/
theorem remark (h : Coherent S L owed x t) : Coherent S L [] (x.markAllDirty owed) t := by
  have dirty : ∀ k, k ∈ (x.markAllDirty owed).dirty ↔ k ∈ x.dirty ∨ k ∈ owed := fun k => by
    simp [CatalogState.markAllDirty, Std.ExtTreeSet.mem_insertMany_list]
  refine ⟨fun k hs hk => ?_, h.shadow, fun k hs hk _ => ?_⟩
  · rw [dirty] at hk
    exact h.kept k hs (hk.resolve_right List.not_mem_nil)
  · rw [dirty, not_or] at hk
    exact h.clean k hs hk.1 hk.2

end Coherent

/-- what a catalog builds on, where calls of which `failing` holds may fail -/
structure FrailLaws (c : Catalog (Run σ)) (R : σ → Layer CatalogState ρ → Prop)
    (scan : List Bytes → List Bytes → Prop) (failing : Call → Prop) : Prop
    extends Layered c.rows c.state R scan failing where
  order : ∀ keys v, Yields R (c.order keys) v fun ks w => ks.Perm keys ∧ w = v

theorem Laws.frail {c : Catalog (Run σ)} {R : σ → Layer CatalogState ρ → Prop} {scan : List Bytes → List Bytes → Prop}
    (laws : c.Laws R scan) : c.FrailLaws R scan never := ⟨laws.toLayered, laws.order⟩

namespace FrailLaws

variable {c : Catalog (Run σ)} {R : σ → Layer CatalogState ρ → Prop} {scan : List Bytes → List Bytes → Prop}
  {failing : Call → Prop} {S : Key → Prop} {L : Key → Option UInt64} {r : ρ} {v : Layer CatalogState ρ} {key : Key}

theorem laws (frail : c.FrailLaws R scan never) : c.Laws R scan := ⟨frail.toLayered, frail.order⟩

/-- a length that has been told is held in memory -/
theorem length_keeps (laws : c.FrailLaws R scan failing) (key : Key) (v : Layer CatalogState ρ) :
    Ends R (c.length key) v fun o w => ∀ m, o = .ok m → w.held.lengths[key]? = some m := by
  refine (laws.read v).next ?_
  cases held : v.held.lengths[key]? with
  | some n => exact ends_pure n fun _ e => held.trans (congrArg some (Except.ok.inj e))
  | none =>
    refine Ends.bind (Ends.mono (Layered.beneath ((laws.inner _ _).get _ _ _)) ?_)
    intro o w hw
    rcases hw with ⟨_, rfl, _, ⟨rfl, rfl⟩, rfl⟩ | ⟨_, ⟨e, rfl⟩, rfl⟩
    · refine .inl ⟨_, rfl, ?_⟩
      cases v.beneath.get (lengthRow key) lengthColumn with
      | none => exact ends_throw _ nofun
      | some cell =>
        dsimp only
        split_ifs
        · exact Ends.bind (ends_throw _ (.inr ⟨_, rfl, nofun⟩))
        · refine (laws.modify _ v).step ?_
          refine (laws.read _).next ?_
          refine ends_pure _ fun _ e => ?_
          have filled := v.held.lengths_fill (Bytes.toUInt64 cell) held key
          rw [if_pos rfl] at filled
          rw [Std.ExtTreeMap.getD_eq_getD_getElem?, filled, Option.getD_some] at e
          exact filled.trans (congrArg some (Except.ok.inj e))
    · exact .inr ⟨e, rfl, nofun⟩

/-- a length and an entry are written, or the first alone, or neither -/
theorem persist (laws : c.FrailLaws R scan failing) (key : Key) (n : UInt64) (v : Layer CatalogState ρ) :
    Stops R (c.persist key n) v (someFails failing) (fun _ w => w = { v with beneath := persisted v.beneath key n })
      fun w => w = v ∨ w = { v with beneath := v.beneath.put (lengthRow key) lengthColumn (Bytes.ofUInt64 n) } := by
  have first := (Layered.beneath (v := v) ((laws.inner _ _).put (lengthRow key) lengthColumn (Bytes.ofUInt64 n) _)).weaken
    fun hf => (⟨_, hf⟩ : someFails failing)
  refine first.stops ?_ (.inl rfl)
  intro _ _ hw
  obtain ⟨_, rfl, rfl⟩ := hw
  have second := (Layered.beneath (v := { v with
      beneath := v.beneath.put (lengthRow key) lengthColumn (Bytes.ofUInt64 n) })
    ((laws.inner _ _).put listing (listingColumn key) (Utf8.encode (lengthRow key)) _)).weaken
    fun hf => (⟨_, hf⟩ : someFails failing)
  refine Tries.last (second.mono ?_) (.inr rfl)
  intro _ _ hw
  obtain ⟨_, rfl, rfl⟩ := hw
  rfl

/-- writing out lengths keeps them all, those that are yet to be written as dirty -/
theorem persistAll (laws : c.FrailLaws R scan failing) (keys : List Key) (v : Layer CatalogState ρ)
    (h : Coherent S L keys v.held v.beneath) :
    Stops R (c.persistAll keys) v (someFails failing) (fun _ w => w.Records S L v.rest ∧ w.held = v.held)
      fun w => w.Records S L v.rest ∧ w.held.lengths = v.held.lengths := by
  induction keys generalizing v with
  | nil => exact stops_pure () ⟨⟨h, rfl⟩, rfl⟩
  | cons key keys ih =>
    refine (laws.read v).next ?_
    cases e : v.held.lengths[key]? with
    | none => exact ih v (h.skip e)
    | some n =>
      refine Ends.bind (Ends.tryCatch (Ends.mono (laws.persist key n v) ?_))
      intro o w hw
      rcases hw with ⟨_, rfl, rfl⟩ | ⟨fails, ⟨e', rfl⟩, left⟩
      · exact .inl ⟨(), rfl, .inl ⟨(), rfl, ih { v with beneath := persisted v.beneath key n } (h.pay e)⟩⟩
      · -- this length and those after it are dirty again
        have still : Coherent S L (key :: keys) w.held w.beneath ∧ w.rest = v.rest ∧ w.held = v.held := by
          rcases left with rfl | rfl
          · exact ⟨h, rfl, rfl⟩
          · exact ⟨h.put_length e, rfl, rfl⟩
        obtain ⟨coherent, rest, held⟩ := still
        refine .inr ⟨e', rfl, (laws.modify _ _).ends ?_⟩
        intro _ _ hw
        subst hw
        refine ends_throw e' (.inr ⟨e', rfl, .inr ⟨fails, ⟨e', rfl⟩, ⟨coherent.remark, rest⟩, ?_⟩⟩)
        rw [← held]
        rfl

/-- **A flush** writes every dirty length, or fails and keeps every length. -/
theorem flush (laws : c.FrailLaws R scan failing) (h : v.Records S L r) :
    Stops R (c.flush false) v (someFails failing)
      (fun _ w => w.Records S L r ∧ w.held.lengths = v.held.lengths ∧ ∀ key, key ∉ w.held.dirty)
      fun w => w.Records S L r ∧ w.held.lengths = v.held.lengths := by
  obtain ⟨coherent, rfl⟩ := h
  refine (laws.read v).next ?_
  refine (laws.write _ _).step ?_
  refine (laws.order _ _).ends ?_
  intro keys _ hw
  obtain ⟨perm, rfl⟩ := hw
  refine Stops.bind (laws.persistAll keys _ (coherent.owe_all.reorder fun k => perm.mem_iff)) ?_ fun _ left => left
  intro _ w hw
  obtain ⟨records, held⟩ := hw
  refine stops_pure () ⟨records, by rw [held], fun key => ?_⟩
  rw [held]
  exact Std.ExtTreeSet.not_mem_empty

end FrailLaws

end Catalog

/-! ## Writers -/

namespace Writer

variable {w : Writer (Run σ)} {S : Key → Prop} {L : Key → Option UInt64} {r : ρ} {n : UInt64} {p : Table Column}
  {d : Digest} {u : Layer CatalogState (Layer WriterState ρ)}

/-- what a writer builds on, where calls of which `failing` holds may fail -/
structure FrailLaws (w : Writer (Run σ)) (R : σ → Layer CatalogState (Layer WriterState ρ) → Prop)
    (scan : List Bytes → List Bytes → Prop) (failing : Call → Prop) : Prop where
  catalog : w.catalog.FrailLaws R scan failing
  writer : ∀ x t, Layered w.rows w.state (fun s v => R s ⟨x, t, v⟩) scan failing
  order : ∀ as v, Yields R (w.order as) v fun bs u => bs.Perm as ∧ u = v

variable {R : σ → Layer CatalogState (Layer WriterState ρ) → Prop} {scan : List Bytes → List Bytes → Prop}
  {failing : Call → Prop}

theorem Laws.frail (laws : w.Laws R scan) : w.FrailLaws R scan never := ⟨laws.catalog.frail, laws.writer, laws.order⟩

/-- the length at which a new writer starts is held in memory -/
theorem start_keeps {c : Catalog (Run σ)} {R : σ → Layer CatalogState ρ → Prop} (laws : c.FrailLaws R scan failing)
    (rows : Rows (Run σ)) (key : Key) (v : Layer CatalogState ρ) :
    Ends R (start rows c key) v fun o v' => ∀ x, o = .ok x → v'.held.lengths[key]? = some x.pointer := by
  have found : Ends R (tryCatch (c.length key) fun e => do
      if !e.isNotFound then throw e
      c.setLength key 0 false
      pure 0) v fun o v' => ∀ m, o = .ok m → v'.held.lengths[key]? = some m := by
    refine Ends.tryCatch (Ends.mono (laws.length_keeps key v) fun o v' told => ?_)
    cases o with
    | ok n => exact .inl ⟨n, rfl, told⟩
    | error e =>
      refine .inr ⟨e, rfl, ?_⟩
      split_ifs
      · exact Ends.bind (ends_throw _ (.inr ⟨_, rfl, fun _ e => by cases e⟩))
      · refine (laws.setLength_held key 0 v').step ?_
        refine ends_pure _ fun _ e => ?_
        cases e
        exact (CatalogState.lengths_setLength ..).trans (if_pos rfl)
  rw [start]
  split_ifs
  · exact Ends.bind (ends_throw _ (.inr ⟨_, rfl, fun _ e => by cases e⟩))
  · refine Ends.bind (Ends.mono found fun o v' told => ?_)
    cases o with
    | ok n => exact .inl ⟨n, rfl, ends_pure _ fun _ e => Except.ok.inj e ▸ told n rfl⟩
    | error e => exact .inr ⟨e, rfl, fun _ e => by cases e⟩

namespace FrailLaws

theorem laws (frail : w.FrailLaws R scan never) : w.Laws R scan := ⟨frail.catalog.laws, frail.writer, frail.order⟩

/-- the writer's own cache is a cache over the rows of the data -/
theorem cache (laws : w.FrailLaws R scan failing) : w.cache.Laws (fun s v => R s v.inWriter) scan failing :=
  cache_laws laws.writer laws.order

/-- bytes are written over the spans of a stretch, or over some of them: what lies below the stretch stays -/
theorem writeSpans (laws : w.FrailLaws R scan failing) (hw : 0 < w.rows.width) (below : Nat) {pos : Nat}
    (from_ : below ≤ pos) (buf : Bytes) (small : pos + buf.length < UInt64.size)
    {v : Layer CacheState (Layer CatalogState (Layer WriterState ρ))} (h : v.StandsFor p u) :
    Stops (fun s v => R s v.inWriter) (w.writeSpans (Layout.spans w.rows.width pos buf.length) buf) v
      (someFails failing ∨ longestBuffer < w.rows.width)
      (fun _ v' => v'.StandsFor
        (Layout.writeSpans w.rows.width w.key (Layout.spans w.rows.width pos buf.length) buf p) u ∧ v'.beneath = v.beneath)
      fun v' => (∃ q, v'.StandsFor q u ∧
        ∀ i < below, Layout.byte w.rows.width q w.key i = Layout.byte w.rows.width p w.key i) ∧ v'.beneath = v.beneath := by
  obtain ⟨len, hlen⟩ : ∃ len, len = buf.length := ⟨_, rfl⟩
  rw [← hlen] at small ⊢
  induction pos, len using Layout.stretch_induction hw generalizing buf p v with
  | nil pos =>
    rw [Layout.spans_zero]
    exact stops_pure () ⟨h, rfl⟩
  | cons pos len some ih =>
    have le := Layout.run_le (w := w.rows.width) pos len
    have taken : (buf.take (Layout.run w.rows.width pos len)).length = Layout.run w.rows.width pos len := by
      rw [List.length_take]
      omega
    have stops := (Layout.stops_iff hw pos len).2 (.inr small)
    rw [Layout.spans_cons hw pos some] at stops ⊢
    have gets := (laws.cache.get_held w.key (UInt64.ofNat (pos / w.rows.width)) h).weaken
      fun hf => (.inl ⟨_, hf⟩ : someFails failing ∨ longestBuffer < w.rows.width)
    refine gets.stops ?_ ⟨⟨p, h, fun _ _ => rfl⟩, rfl⟩
    intro _ v₁ hv
    obtain ⟨stands, rfl, same, _⟩ := hv
    by_cases wide : ((p.get w.key (UInt64.ofNat (pos / w.rows.width))).getD []).length < w.rows.width ∧
        longestBuffer < w.rows.width
    · rw [if_pos wide]
      exact Ends.bind (ends_throw _ (.inr ⟨_, rfl, .inr ⟨.inr wide.2, ⟨_, rfl⟩, ⟨p, stands, fun _ _ => rfl⟩, same⟩⟩))
    rw [if_neg wide]
    refine (laws.cache.put_held rfl w.key (UInt64.ofNat (pos / w.rows.width)) _ stands).stops ?_
    intro _ v₂ hv
    obtain ⟨stands', same', _⟩ := hv
    rw [checkWord_of_lt (stops _ List.mem_cons_self), pure_bind]
    refine Stops.mono (ih (Nat.le_trans from_ (Nat.le_add_right _ _))
      (buf.drop (Layout.run w.rows.width pos len)) stands' (by omega) (by rw [List.length_drop, hlen])) ?_ ?_
    · intro _ v' hv
      exact ⟨hv.1, hv.2.trans (same'.trans same)⟩
    · intro v' hv
      obtain ⟨⟨q, after, kept⟩, same''⟩ := hv
      refine ⟨⟨q, after, fun i hi => (kept i hi).trans ?_⟩, same''.trans (same'.trans same)⟩
      have put := Layout.byte_put (t := p) (k := w.key) hw (buf.take (Layout.run w.rows.width pos len))
        (by rw [taken]; exact Layout.offset_add_run_le hw pos len) (by omega : pos < UInt64.size)
        (by omega : i < UInt64.size)
      exact put.trans (if_neg (by omega))

/-- a call on the writer's cache changes nothing but the cache and the table beneath -/
theorem inWriter {α : Type} {x : Run σ α} {may : Prop}
    {P : α → Layer CacheState (Layer CatalogState (Layer WriterState ρ)) → Prop}
    {E : Layer CacheState (Layer CatalogState (Layer WriterState ρ)) → Prop}
    (h : Stops (fun s v => R s v.inWriter) x ⟨u.rest.held.cache, u.rest.beneath, u⟩ may P E) :
    Stops R x u may (fun a u' => ∃ v, P a v ∧ u' = v.inWriter) fun u' => ∃ v, E v ∧ u' = v.inWriter := by
  refine Ends.through h (fun _ hs => hs) fun o v ended => ⟨v.inWriter, fun _ hs => hs, ?_⟩
  exact ended.imp (fun ⟨a, ha, hp⟩ => ⟨a, ha, v, hp, rfl⟩) fun ⟨hm, failed, he⟩ => ⟨hm, failed, v, he, rfl⟩

/-- **A write** goes where the one before it ended. If it fails, nothing is counted, and every byte below stays. -/
theorem write (laws : w.FrailLaws R scan failing) (hw : 0 < w.rows.width) {buf : Bytes}
    (fits : n.toNat + buf.length < UInt64.size) (h : w.Opened S L r n p d u) :
    Stops R (w.write buf) u (someFails failing ∨ longestBuffer < w.rows.width)
      (fun _ u' => w.Opened S L r (n + UInt64.ofNat buf.length) (Layout.writeSpans w.rows.width w.key
          (Layout.spans w.rows.width n.toNat buf.length) buf p) (d.write buf) u' ∧
        u'.rest.beneath = u.rest.beneath ∧ u'.held.lengths[w.key]? = some (n + UInt64.ofNat buf.length))
      fun u' => (∃ q, w.Opened S L r n q d u' ∧
          ∀ i < n.toNat, Layout.byte w.rows.width q w.key i = Layout.byte w.rows.width p w.key i) ∧
        u'.rest.beneath = u.rest.beneath ∧ u'.held = u.held := by
  obtain ⟨rfl, rfl, lengths, coherent, rfl⟩ := h
  have stands : Layer.StandsFor ⟨u.rest.held.cache, u.rest.beneath, u⟩ p u := ⟨coherent, rfl⟩
  refine (Laws.rest ((laws.writer _ _).read u.rest)).stops ?_
  intro _ _ hu
  obtain ⟨_, ⟨rfl, rfl⟩, rfl⟩ := hu
  refine Stops.bind (FrailLaws.inWriter (laws.writeSpans hw _ (Nat.le_refl _) buf fits stands)) ?_ ?_
  · intro _ _ hu
    obtain ⟨⟨cache, data, v⟩, ⟨⟨after, same⟩, unchanged⟩, rfl⟩ := hu
    obtain rfl : u = v := same.symm
    refine (Laws.rest ((laws.writer _ _).modify _ _)).stops ?_
    intro _ u' hu
    obtain ⟨_, rfl, moved⟩ := hu
    have held : Catalog.Coherent S (Function.update L w.key (some u.rest.held.pointer)) [] u'.held u'.beneath := by
      rw [moved]
      exact lengths
    refine Ends.mono (laws.catalog.setLength_held w.key _ u') ?_
    intro _ _ hu
    obtain ⟨_, rfl, rfl⟩ := hu
    subst moved
    have lengths := held.setLength w.key (u.rest.held.pointer + UInt64.ofNat buf.length)
    rw [Function.update_idem] at lengths
    refine .inl ⟨_, rfl, ⟨rfl, rfl, lengths, after, rfl⟩, unchanged, ?_⟩
    exact (CatalogState.lengths_setLength ..).trans (if_pos rfl)
  · intro _ hu
    obtain ⟨⟨cache, data, v⟩, ⟨⟨q, ⟨after, same⟩, kept⟩, unchanged⟩, rfl⟩ := hu
    obtain rfl : u = v := same.symm
    exact ⟨⟨q, ⟨rfl, rfl, lengths, after, rfl⟩, kept⟩, unchanged, rfl⟩

/-- **A flush** writes out what the writer has come to, or fails and leaves it. -/
theorem flush (laws : w.FrailLaws R scan failing) (h : w.Opened S L r n p d u) :
    Stops R w.flush u (someFails failing)
      (fun _ u' => (w.Opened S L r n p d u' ∧ u'.held.lengths = u.held.lengths) ∧ Flushed u')
      fun u' => w.Opened S L r n p d u' ∧ u'.held.lengths = u.held.lengths := by
  obtain ⟨pointer, digest, lengths, coherent, rest⟩ := h
  have stands : Layer.StandsFor ⟨u.rest.held.cache, u.rest.beneath, u⟩ p u := ⟨coherent, rfl⟩
  have emptied : Stops (fun s v => R s (Layer.inWriter v)) (w.cache.flush true)
      ⟨u.rest.held.cache, u.rest.beneath, u⟩ (someFails failing)
      (fun _ v => Layer.StandsFor v p u ∧ ∀ a, a ∉ v.held.marks) fun v => Layer.StandsFor v p u := by
    refine Ends.mono (laws.cache.flush true stands) fun o v hv => ?_
    rcases hv with ⟨after, ⟨rfl, unmarked⟩ | ⟨failed, k, col, cell, fails⟩⟩
    · exact .inl ⟨(), rfl, after, unmarked⟩
    · exact .inr ⟨⟨_, fails⟩, failed, after⟩
  refine Stops.bind (FrailLaws.inWriter emptied) ?_ ?_
  · intro _ u' hu
    obtain ⟨⟨cache, data, v⟩, ⟨⟨after, same⟩, unmarked⟩, moved⟩ := hu
    obtain rfl : u = v := same.symm
    have held : Catalog.Coherent S (Function.update L w.key (some n)) [] u'.held u'.beneath := by
      rw [moved]
      exact lengths
    refine Stops.mono (laws.catalog.flush ⟨held, rfl⟩) ?_ ?_
    · rintro _ ⟨x, names, _⟩ ⟨⟨lengths, rfl⟩, known, clean⟩
      subst moved
      exact ⟨⟨⟨pointer, digest, lengths, after, rest⟩, known⟩, ⟨unmarked, clean⟩⟩
    · rintro ⟨x, names, _⟩ ⟨⟨lengths, rfl⟩, known⟩
      subst moved
      exact ⟨⟨pointer, digest, lengths, after, rest⟩, known⟩
  · intro _ hu
    obtain ⟨⟨cache, data, v⟩, ⟨after, same⟩, rfl⟩ := hu
    obtain rfl : u = v := same.symm
    exact ⟨⟨pointer, digest, lengths, after, rest⟩, rfl⟩

end FrailLaws

end Writer

end RowFiles
