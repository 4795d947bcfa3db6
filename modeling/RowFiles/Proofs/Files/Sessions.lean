/-
Writers and their sessions.

A session opens a writer on a file, appends and flushes in any order, and closes. While it lasts, the writer's cache and
the rows beneath stand for a row that holds all bytes written so far (`Writer.Appends`), and each call keeps this
(`Writer.Laws.write`, `Writer.Laws.flush`). Between sessions the row beneath holds the bytes itself (`Writer.Stored`).

`Writer.Laws.sessions`: sessions one after another append the bytes of all of them, wherever they were cut.
-/
import RowFiles.Files.Writer
import RowFiles.Proofs.Files.Catalogs
import RowFiles.Proofs.Files.Layout
import RowFiles.Proofs.Store.Caching

namespace RowFiles

open Run

/-- the CRC-32 of bytes -/
def crc32 (b : Bytes) : UInt32 := (({} : Digest).write b).checksum

/-- the check value of the CRC-32 -/
example : crc32 [0x31, 0x32, 0x33, 0x34, 0x35, 0x36, 0x37, 0x38, 0x39] = 0xCBF43926 := by decide +kernel

theorem Digest.write_append (d : Digest) (a b : Bytes) : d.write (a ++ b) = (d.write a).write b := by
  rw [write, write, write, List.foldl_append]

/-- bytes written to one row leave the others alone -/
theorem Layout.get_writeSpans {w : Nat} {k k' : Key} (other : k' ≠ k) (spans : List Span) (buf : Bytes)
    (t : Table Column) (c : Column) : (Layout.writeSpans w k spans buf t).get k' c = t.get k' c := by
  induction spans generalizing buf t with
  | nil => rfl
  | cons s spans ih => rw [writeSpans, ih, Table.get_put, if_neg fun e => other e.1.symm]

/-- once a cell is written, the row has a cell -/
theorem Layout.writeSpans_filled {w : Nat} {k : Key} {spans : List Span} {buf : Bytes} {t : Table Column}
    (some : spans ≠ [] ∨ ∃ c v, t.get k c = .some v) : ∃ c v, (Layout.writeSpans w k spans buf t).get k c = .some v := by
  induction spans generalizing buf t with
  | nil => exact some.resolve_left fun h => h rfl
  | cons s spans ih => exact ih (.inr ⟨s.columnNumber, _, by rw [Table.get_put, if_pos ⟨rfl, rfl⟩]⟩)

variable {σ ρ : Type}

/-- the view of a writer with other cells in its cache and another table beneath it -/
def Layer.inWriter (v : Layer CacheState (Layer CatalogState (Layer WriterState ρ))) :
    Layer CatalogState (Layer WriterState ρ) :=
  { v.rest with rest := { v.rest.rest with held := { v.rest.rest.held with cache := v.held }, beneath := v.beneath } }

namespace Writer

/-! ## Sessions -/

inductive Step where
  | write (buf : Bytes)
  | flush

/-- the bytes that steps write -/
def bytes : List Step → Bytes
  | [] => []
  | .write buf :: steps => buf ++ bytes steps
  | .flush :: steps => bytes steps

section

variable {m : Type → Type} [Monad m] [MonadExceptOf Error m] (w : Writer m)

def act : Step → m Unit
  | .write buf => w.write buf
  | .flush => w.flush

/-- takes the state of a new writer on the file -/
def reopen : m Unit := do w.state.write (← start w.rows w.catalog w.key)

/-- a writer is opened, used and closed; its pointer and its checksum are looked at last -/
def session (steps : List Step) : m (UInt64 × UInt32) := do
  w.reopen
  steps.forM w.act
  let s ← w.state.read
  w.close
  return (s.pointer, s.digest.checksum)

end

/-- the pointers and checksums of sessions, the first of which finds `n` bytes -/
def reports : Nat → List (List Step) → List (UInt64 × UInt32)
  | _, [] => []
  | n, steps :: rest =>
    (UInt64.ofNat (n + (bytes steps).length), crc32 (bytes steps)) :: reports (n + (bytes steps).length) rest

/-! ## What can be written -/

/-- bytes that can be written from a position on: there are none, or columns are no wider than a buffer and there is a
position behind the bytes -/
def Takes (width pos : Nat) (buf : Bytes) : Prop := buf = [] ∨ width ≤ longestBuffer ∧ pos + buf.length < UInt64.size

instance (width pos : Nat) (buf : Bytes) : Decidable (Takes width pos buf) := inferInstanceAs (Decidable (_ ∨ _ ∧ _))

theorem Takes.stops {width pos : Nat} {buf : Bytes} (takes : Takes width pos buf) :
    ∀ s ∈ Layout.spans width pos buf.length, s.stop width < UInt64.size := by
  rcases takes with rfl | ⟨_, within⟩
  · simp
  · intro s there
    exact Nat.lt_of_le_of_lt (Layout.stop_le there) within

/-- bytes can be written if they can be one after another -/
theorem takes_append {width : Nat} {n : UInt64} {a b : Bytes} : Takes width n.toNat (a ++ b) ↔
    Takes width n.toNat a ∧ Takes width (n + UInt64.ofNat a.length).toNat b := by
  by_cases none : a = []
  · subst none
    simp [Takes]
  have moved (within : n.toNat + a.length < UInt64.size) :
      (n + UInt64.ofNat a.length).toNat = n.toNat + a.length := by
    rw [UInt64.toNat_add, UInt64.toNat_ofNat_of_lt' (by omega)]
    exact Nat.mod_eq_of_lt within
  simp only [Takes, none, List.append_eq_nil_iff, List.length_append, false_and, false_or]
  constructor
  · rintro ⟨narrow, within⟩
    exact ⟨⟨narrow, by omega⟩, .inr ⟨narrow, by rw [moved (by omega)]; omega⟩⟩
  · rintro ⟨⟨narrow, within⟩, rfl | ⟨_, within'⟩⟩
    · exact ⟨narrow, within⟩
    · rw [moved within] at within'
      exact ⟨narrow, by omega⟩

/-! ## What steps come to -/

/-- the length and the table that steps come to: each write goes where the one before it ended -/
def written (width : Nat) (key : Key) : List Step → UInt64 → Table Column → UInt64 × Table Column
  | [], n, t => (n, t)
  | .write buf :: steps, n, t =>
    written width key steps (n + UInt64.ofNat buf.length)
      (Layout.writeSpans width key (Layout.spans width n.toNat buf.length) buf t)
  | .flush :: steps, n, t => written width key steps n t

section

variable {width : Nat} {key : Key} {t : Table Column} {b : Bytes}

/-- steps leave other rows alone -/
theorem get_written {k : Key} (other : k ≠ key) (steps : List Step) (n : UInt64) (t : Table Column) (c : Column) :
    (written width key steps n t).2.get k c = t.get k c := by
  induction steps generalizing n t with
  | nil => rfl
  | cons step steps ih =>
    cases step with
    | write buf => rw [written, ih, Layout.get_writeSpans other]
    | flush => exact ih n t

/-- steps that write nothing come to nothing -/
theorem written_nil {steps : List Step} (nothing : bytes steps = []) (n : UInt64) (t : Table Column) :
    written width key steps n t = (n, t) := by
  induction steps generalizing n t with
  | nil => rfl
  | cons step steps ih =>
    cases step with
    | write buf =>
      obtain ⟨rfl, later⟩ := List.append_eq_nil_iff.1 nothing
      rw [written, List.length_nil, Layout.spans_zero, Layout.writeSpans, ih later]
      simp
    | flush => exact ih nothing n t

/-- where steps come to a length, the row has a cell -/
theorem written_filled (hw : 0 < width) (steps : List Step) {n : UInt64} {t : Table Column}
    (filled : n ≠ 0 → ∃ c v, t.get key c = some v) (some : (written width key steps n t).1 ≠ 0) :
    ∃ c v, (written width key steps n t).2.get key c = .some v := by
  induction steps generalizing n t with
  | nil => exact filled some
  | cons step steps ih =>
    cases step with
    | write buf =>
      refine ih (fun later => ?_) some
      cases buf with
      | nil =>
        rw [List.length_nil, Layout.spans_zero]
        exact filled (by simpa using later)
      | cons b buf =>
        exact Layout.writeSpans_filled (.inl (Layout.spans_ne_nil hw _ (Nat.succ_pos _)))
    | flush => exact ih filled some

/-- steps that start at the end of a row's bytes append what they write -/
theorem written_holds (hw : 0 < width) (holds : Layout.Holds width t key b) (steps : List Step)
    (small : b.length + (bytes steps).length < UInt64.size) :
    (written width key steps (UInt64.ofNat b.length) t).1 = UInt64.ofNat (b ++ bytes steps).length ∧
      Layout.Holds width (written width key steps (UInt64.ofNat b.length) t).2 key (b ++ bytes steps) := by
  induction steps generalizing b t with
  | nil => simpa only [bytes, List.append_nil] using ⟨rfl, holds⟩
  | cons step steps ih =>
    cases step with
    | write buf =>
      rw [bytes, List.length_append] at small
      have start : (UInt64.ofNat b.length).toNat = b.length := UInt64.toNat_ofNat_of_lt (by omega)
      have stop : UInt64.ofNat b.length + UInt64.ofNat buf.length = UInt64.ofNat (b ++ buf).length := by
        rw [List.length_append, UInt64.ofNat_add]
      have longer := holds.writeSpans hw buf (by omega)
      rw [bytes, ← List.append_assoc, written, start, stop]
      exact ih longer (by rw [List.length_append]; omega)
    | flush => exact ih holds small

/-- what steps come to is decided by the bytes they write, not by how these are cut -/
theorem written_congr (hw : 0 < width) (holds : Layout.Holds width t key b) {steps steps' : List Step}
    (same : bytes steps = bytes steps') (small : b.length + (bytes steps).length < UInt64.size) :
    written width key steps (UInt64.ofNat b.length) t = written width key steps' (UInt64.ofNat b.length) t := by
  obtain ⟨stop, row⟩ := written_holds hw holds steps small
  obtain ⟨stop', row'⟩ := written_holds hw holds steps' (same ▸ small)
  refine Prod.ext (by rw [stop, stop', same]) (Table.ext_get fun k c => ?_)
  by_cases here : k = key
  · rw [here, row, row', same]
  · rw [get_written here, get_written here]

end

/-! ## What a writer works on -/

/-- what a writer builds on: a catalog over its rows, and the writer's state over the rows of the data -/
structure Laws (w : Writer (Run σ)) (R : σ → Layer CatalogState (Layer WriterState ρ) → Prop)
    (scan : List Bytes → List Bytes → Prop) : Prop where
  catalog : w.catalog.Laws R scan
  writer : ∀ x t, Layered w.rows w.state (fun s v => R s ⟨x, t, v⟩) scan never
  order : ∀ as v, Yields R (w.order as) v fun bs u => bs.Perm as ∧ u = v

variable (w : Writer (Run σ)) (S : Key → Prop) (L : Key → Option UInt64) (t : Table Column) (r : ρ)

/-- an open writer that found the lengths `L` and has come to the length `n`, the table `p` and the checksum `d` -/
structure Opened (n : UInt64) (p : Table Column) (d : Digest) (u : Layer CatalogState (Layer WriterState ρ)) : Prop where
  pointer : u.rest.held.pointer = n
  digest : u.rest.held.digest = d
  lengths : Catalog.Coherent S (Function.update L w.key (some n)) [] u.held u.beneath
  cells : Coherent [] u.rest.held.cache u.rest.beneath p
  rest : u.rest.rest = r

/-- a writer that found the lengths `L` and the table `t` and has made the file's bytes `b`, of which it wrote `mine` -/
structure Appends (b mine : Bytes) (u : Layer CatalogState (Layer WriterState ρ)) : Prop where
  pointer : u.rest.held.pointer.toNat = b.length
  digest : u.rest.held.digest = ({} : Digest).write mine
  lengths : Catalog.Coherent S (Function.update L w.key (some (UInt64.ofNat b.length))) [] u.held u.beneath
  cells : ∃ p, Coherent [] u.rest.held.cache u.rest.beneath p ∧ Layout.Holds w.rows.width p w.key b ∧
    ∀ k ≠ w.key, ∀ c, p.get k c = t.get k c
  rest : u.rest.rest = r

/-- nothing is left to be flushed -/
structure Flushed (u : Layer CatalogState (Layer WriterState ρ)) : Prop where
  cells : ∀ a, a ∉ u.rest.held.cache.marks
  lengths : ∀ k, k ∉ u.held.dirty

/-- no writer is open, and the row beneath holds the file's bytes; a file without bytes may have no length -/
structure Stored (b : Bytes) (u : Layer CatalogState (Layer WriterState ρ)) : Prop where
  lengths : Catalog.Coherent S (Function.update L w.key (some (UInt64.ofNat b.length))) [] u.held u.beneath ∨
    b = [] ∧ L w.key = none ∧ Catalog.Coherent S L [] u.held u.beneath
  holds : Layout.Holds w.rows.width u.rest.beneath w.key b
  others : ∀ k ≠ w.key, ∀ c, u.rest.beneath.get k c = t.get k c
  rest : u.rest.rest = r

variable {w S L t r} {n : UInt64} {p : Table Column} {d : Digest} {b mine : Bytes}
  {u : Layer CatalogState (Layer WriterState ρ)}

/-- once all is flushed, the table beneath is the one come to -/
theorem Opened.beneath (h : w.Opened S L r n p d u) (flushed : Flushed u) : u.rest.beneath = p :=
  h.cells.eq_of_unmarked flushed.cells

/-- once all is flushed, the row beneath holds the bytes -/
theorem Appends.stored (h : w.Appends S L t r b mine u) (flushed : Flushed u) : w.Stored S L t r b u := by
  obtain ⟨p, coherent, holds, others⟩ := h.cells
  obtain rfl := coherent.eq_of_unmarked flushed.cells
  exact ⟨.inl h.lengths, holds, others, h.rest⟩

/-- a file starts with the length that is known of it, or is made; nothing is written -/
theorem start_records {c : Catalog (Run σ)} {R : σ → Layer CatalogState ρ → Prop} {scan : List Bytes → List Bytes → Prop}
    {v : Layer CatalogState ρ} {key : Key} (laws : c.Laws R scan) (rows : Rows (Run σ)) (hw : 0 < rows.width)
    (hs : S key) (h : v.Records S L r) :
    Yields R (start rows c key) v fun x v' => x = { pointer := (L key).getD 0 } ∧
      v'.Records S (Function.update L key (some ((L key).getD 0))) r ∧ v.KeepsOrder key v' ∧ v'.beneath = v.beneath := by
  have found : Yields R (tryCatch (c.length key) fun e => do
      if !e.isNotFound then throw e
      c.setLength key 0 false
      pure 0) v fun n v' => n = (L key).getD 0 ∧
        v'.Records S (Function.update L key (some ((L key).getD 0))) r ∧ v.KeepsOrder key v' ∧ v'.beneath = v.beneath := by
    cases known : L key with
    | some n =>
      refine Yields.tryCatch ((laws.length_held h hs known).mono ?_)
      intro _ v' hv
      obtain ⟨e, records, order, beneath, _⟩ := hv
      have same : Function.update L key (some n) = L := by rw [← known, Function.update_eq_self]
      exact ⟨e, same.symm ▸ records, order, beneath⟩
    | none =>
      refine Ends.tryCatch (Ends.mono (laws.length_none h hs known) ?_)
      intro _ v hv
      obtain ⟨rfl, rfl⟩ := hv
      refine .inr ⟨_, rfl, (laws.setLength_held key 0 v).step ?_⟩
      exact yields_pure 0 ⟨rfl, ⟨h.coherent.setLength key 0, h.rest⟩, fun _ used orderly => orderly.setLength used 0, rfl⟩
  rw [start, if_neg (Nat.ne_of_gt hw)]
  refine found.bind ?_
  intro _ v' hv
  obtain ⟨rfl, records⟩ := hv
  exact yields_pure _ ⟨rfl, records⟩

/-! ## The writer's cache -/

/-- a cache of a writer's own is a cache over the rows of the data -/
theorem cache_laws {w : Writer (Run σ)} {R : σ → Layer CatalogState (Layer WriterState ρ) → Prop}
    {scan : List Bytes → List Bytes → Prop} {failing : Call → Prop}
    (writer : ∀ x t, Layered w.rows w.state (fun s v => R s ⟨x, t, v⟩) scan failing)
    (order : ∀ as v, Yields R (w.order as) v fun bs u => bs.Perm as ∧ u = v) :
    w.cache.Laws (fun s v => R s v.inWriter) scan failing where
  inner x r := (writer r.held r.beneath).inner { r.rest.held with cache := x } r.rest.rest
  read v := by
    refine Yields.map ?_
    intro s hs
    obtain ⟨_, hu, _, ha, rfl, rfl⟩ := (writer v.rest.held v.rest.beneath).read v.inWriter.rest s hs
    exact ⟨v, hu, _, ha, rfl, rfl⟩
  write x v := by
    intro s hs
    obtain ⟨_, hu, _, ha, rfl⟩ := (writer v.rest.held v.rest.beneath).modify
      (fun s => { s with cache := x }) v.inWriter.rest s hs
    exact ⟨{ v with held := x }, hu, _, ha, rfl⟩
  now _ := yields_pure _ rfl
  order as v := (order as v.inWriter).through (fun _ hs => hs) fun _ _ ⟨perm, e⟩ =>
    ⟨v, fun _ hs => e ▸ hs, perm, rfl⟩

namespace Laws

variable {R : σ → Layer CatalogState (Layer WriterState ρ) → Prop} {scan : List Bytes → List Bytes → Prop}

/-- the writer's own cache is a cache over the rows of the data -/
theorem cache (laws : w.Laws R scan) : w.cache.Laws (fun s v => R s v.inWriter) scan never :=
  cache_laws laws.writer laws.order

/-- bytes are written over spans of the plain table, and stay in the cache -/
theorem writeSpans (laws : w.Laws R scan) {spans : List Layout.Span} (fits : spans = [] ∨ w.rows.width ≤ longestBuffer)
    (stops : ∀ s ∈ spans, s.stop w.rows.width < UInt64.size) (buf : Bytes) {v : Layer CacheState (Layer CatalogState (Layer WriterState ρ))} (h : v.StandsFor p u) :
    Yields (fun s v => R s v.inWriter) (w.writeSpans spans buf) v fun _ v' =>
      v'.StandsFor (Layout.writeSpans w.rows.width w.key spans buf p) u ∧ v'.beneath = v.beneath ∧
        ∀ a, a.key ≠ w.key → v'.held.value? a = v.held.value? a := by
  induction spans generalizing buf p v with
  | nil => exact yields_pure () ⟨h, rfl, fun _ _ => rfl⟩
  | cons s spans ih =>
    have narrow : w.rows.width ≤ longestBuffer := fits.resolve_left (List.cons_ne_nil s spans)
    refine Yields.bind ((laws.cache.get_held w.key s.columnNumber h).yields id) ?_
    intro _ v₁ hv
    obtain ⟨stands, rfl, same, cells⟩ := hv
    rw [if_neg fun wide => Nat.not_lt.2 narrow wide.2]
    refine (laws.cache.put_held rfl w.key s.columnNumber _ stands).bind ?_
    intro _ v₂ hv
    obtain ⟨stands', same', cells'⟩ := hv
    rw [List.forall_mem_cons] at stops
    rw [checkWord_of_lt stops.1, pure_bind]
    refine (ih (.inr narrow) stops.2 (buf.drop s.size) stands').mono ?_
    intro _ v' hv
    obtain ⟨after, same'', cells''⟩ := hv
    refine ⟨after, same''.trans (same'.trans same), fun a other => ?_⟩
    rw [cells'' a other, cells' a other, cells a other]

/-- no cell can be made where columns are wider than any buffer -/
theorem writeSpans_refused (laws : w.Laws R scan) (wide : longestBuffer < w.rows.width) {spans : List Layout.Span}
    (some : spans ≠ []) (buf : Bytes) {v : Layer CacheState (Layer CatalogState (Layer WriterState ρ))}
    (h : v.StandsFor p u) (absent : ∀ c, p.get w.key c = none) :
    Ends (fun s v => R s v.inWriter) (w.writeSpans spans buf) v fun o v' => o = .error .tooLarge ∧ v' = v := by
  obtain ⟨s, spans, rfl⟩ := List.exists_cons_of_ne_nil some
  have uncached : v.held.value? ⟨w.key, s.columnNumber⟩ = none := by
    cases cached : v.held.value? ⟨w.key, s.columnNumber⟩ with
    | none => rfl
    | some cell => exact absurd (h.coherent.shadow _ _ cached) (by rw [absent]; nofun)
  have nowhere : v.beneath.get w.key s.columnNumber = none := (h.coherent.get_of_absent uncached).trans (absent _)
  refine ((laws.cache.get_absent w.key s.columnNumber uncached nowhere).yields id).next ?_
  rw [if_pos ⟨Nat.zero_lt_of_lt wide, wide⟩]
  exact Ends.bind (ends_throw _ (.inr ⟨_, rfl, rfl, rfl⟩))

/-- nor can bytes be written over spans of which one has no position behind it -/
theorem writeSpans_beyond (laws : w.Laws R scan) (narrow : w.rows.width ≤ longestBuffer) {spans : List Layout.Span}
    (unfit : ¬ ∀ s ∈ spans, s.stop w.rows.width < UInt64.size) (buf : Bytes)
    {v : Layer CacheState (Layer CatalogState (Layer WriterState ρ))} (h : v.StandsFor p u) :
    Fails (fun s v => R s v.inWriter) (w.writeSpans spans buf) v .tooLarge := by
  induction spans generalizing buf p v with
  | nil => exact absurd (List.forall_mem_nil _) unfit
  | cons s spans ih =>
    refine Yields.fails ((laws.cache.get_held w.key s.columnNumber h).yields id) ?_
    intro _ v₁ hv
    obtain ⟨stands, rfl, _, _⟩ := hv
    rw [if_neg fun wide => Nat.not_lt.2 narrow wide.2]
    refine (laws.cache.put_held rfl w.key s.columnNumber _ stands).fails ?_
    intro _ v₂ hv
    rw [List.forall_mem_cons, not_and] at unfit
    by_cases stops : s.stop w.rows.width < UInt64.size
    · rw [checkWord_of_lt stops, pure_bind]
      exact ih (unfit stops) _ hv.1
    · rw [checkWord_of_not_lt stops]
      exact (fails_throw _).bind

/-- a call on the writer's cache changes nothing but the cache and the table beneath -/
theorem inWriter {α : Type} {x : Run σ α} {P : α → Layer CacheState (Layer CatalogState (Layer WriterState ρ)) → Prop}
    (h : Yields (fun s v => R s v.inWriter) x ⟨u.rest.held.cache, u.rest.beneath, u⟩ P) :
    Yields R x u fun a u' => ∃ v, P a v ∧ u' = v.inWriter :=
  h.through (fun _ hs => hs) fun _ v hp => ⟨v.inWriter, fun _ hs => hs, v, hp, rfl⟩

/-- a call on the writer's own state or rows leaves the catalog alone -/
theorem rest {α : Type} {x : Run σ α} {P : α → Layer WriterState ρ → Prop}
    (h : Yields (fun s v => R s ⟨u.held, u.beneath, v⟩) x u.rest P) :
    Yields R x u fun a u' => ∃ v, P a v ∧ u' = { u with rest := v } :=
  h.through (fun _ hs => hs) fun _ v hp => ⟨{ u with rest := v }, fun _ hs => hs, v, hp, rfl⟩

/-! ## Calls -/

/-- **A write** goes where the one before it ended, and stays in the cache beside the cells of other rows. -/
theorem write (laws : w.Laws R scan) {buf : Bytes} (fits : Takes w.rows.width n.toNat buf)
    (h : w.Opened S L r n p d u) :
    Yields R (w.write buf) u fun _ u' => w.Opened S L r (n + UInt64.ofNat buf.length)
        (Layout.writeSpans w.rows.width w.key (Layout.spans w.rows.width n.toNat buf.length) buf p) (d.write buf) u' ∧
      u'.rest.beneath = u.rest.beneath ∧ u.KeepsOrder w.key u' ∧ u'.beneath = u.beneath ∧
      ∀ a, a.key ≠ w.key → u'.rest.held.cache.value? a = u.rest.held.cache.value? a := by
  obtain ⟨rfl, rfl, lengths, coherent, rfl⟩ := h
  have fits' : Layout.spans w.rows.width u.rest.held.pointer.toNat buf.length = [] ∨ w.rows.width ≤ longestBuffer :=
    fits.imp (fun e => by rw [e]; exact Layout.spans_zero _) And.left
  have stands : Layer.StandsFor ⟨u.rest.held.cache, u.rest.beneath, u⟩ p u := ⟨coherent, rfl⟩
  refine (Laws.rest ((laws.writer _ _).read u.rest)).bind ?_
  intro _ _ hu
  obtain ⟨_, ⟨rfl, rfl⟩, rfl⟩ := hu
  refine (Laws.inWriter (laws.writeSpans fits' fits.stops buf stands)).bind ?_
  intro _ _ hu
  obtain ⟨⟨cache, data, v⟩, ⟨⟨after, same⟩, unchanged, cells⟩, rfl⟩ := hu
  obtain rfl : u = v := same.symm
  refine (Laws.rest ((laws.writer _ _).modify _ _)).bind ?_
  intro _ u' hu
  obtain ⟨_, rfl, moved⟩ := hu
  have held : Catalog.Coherent S (Function.update L w.key (some u.rest.held.pointer)) [] u'.held u'.beneath := by
    rw [moved]
    exact lengths
  refine (laws.catalog.setLength_held w.key _ u').mono ?_
  intro _ _ hu
  subst hu moved
  have lengths := held.setLength w.key (u.rest.held.pointer + UInt64.ofNat buf.length)
  rw [Function.update_idem] at lengths
  exact ⟨⟨rfl, rfl, lengths, after, rfl⟩, unchanged, fun _ used orderly => orderly.setLength used _, rfl, cells⟩

/-- no byte can be written where columns are wider than any buffer, and nothing changes -/
theorem write_untaken (laws : w.Laws R scan) (wide : longestBuffer < w.rows.width) {buf : Bytes} (some : buf ≠ [])
    (absent : ∀ c, p.get w.key c = none) (h : w.Opened S L r n p d u) :
    Ends R (w.write buf) u fun o u' => o = .error .tooLarge ∧ u' = u := by
  obtain ⟨rfl, _, _, coherent, _⟩ := h
  have stands : Layer.StandsFor ⟨u.rest.held.cache, u.rest.beneath, u⟩ p u := ⟨coherent, rfl⟩
  refine (Laws.rest ((laws.writer _ _).read u.rest)).ends ?_
  intro _ _ hu
  obtain ⟨_, ⟨rfl, rfl⟩, rfl⟩ := hu
  have cut : Layout.spans w.rows.width u.rest.held.pointer.toNat buf.length ≠ [] :=
    Layout.spans_ne_nil (Nat.zero_lt_of_lt wide) _ (List.length_pos_iff.2 some)
  refine Ends.bind fun s hs => ?_
  obtain ⟨v, hv, refused, rfl⟩ := laws.writeSpans_refused wide cut buf stands absent s hs
  exact ⟨u, hv, .inr ⟨_, refused, rfl, rfl⟩⟩

/-- what cannot be taken is not written -/
theorem write_refused (laws : w.Laws R scan) (hw : 0 < w.rows.width) {buf : Bytes}
    (unfit : ¬ Takes w.rows.width n.toNat buf) (absent : longestBuffer < w.rows.width → ∀ c, p.get w.key c = none)
    (h : w.Opened S L r n p d u) : Fails R (w.write buf) u .tooLarge := by
  have some : buf ≠ [] := fun e => unfit (.inl e)
  by_cases wide : longestBuffer < w.rows.width
  · exact (laws.write_untaken wide some (absent wide) h).fails
  have narrow := Nat.le_of_not_lt wide
  obtain ⟨rfl, _, _, coherent, _⟩ := h
  have stands : Layer.StandsFor ⟨u.rest.held.cache, u.rest.beneath, u⟩ p u := ⟨coherent, rfl⟩
  have beyond : ¬ ∀ s ∈ Layout.spans w.rows.width u.rest.held.pointer.toNat buf.length,
      s.stop w.rows.width < UInt64.size := by
    rw [Layout.stops_iff hw]
    rintro (none | within)
    · exact some (List.eq_nil_of_length_eq_zero none)
    · exact unfit (.inr ⟨narrow, within⟩)
  refine (Laws.rest ((laws.writer _ _).read u.rest)).fails ?_
  intro _ _ hu
  obtain ⟨_, ⟨rfl, rfl⟩, rfl⟩ := hu
  exact Fails.bind fun s hs => laws.writeSpans_beyond narrow beyond buf stands s hs

/-- a flush leaves nothing to be flushed, and an empty cache -/
theorem flush (laws : w.Laws R scan) (h : w.Opened S L r n p d u) :
    Yields R w.flush u fun _ u' => w.Opened S L r n p d u' ∧ Flushed u' ∧ u.KeepsOrder w.key u' ∧
      ∀ a, u'.rest.held.cache.value? a = none := by
  obtain ⟨pointer, digest, lengths, coherent, rest⟩ := h
  have stands : Layer.StandsFor ⟨u.rest.held.cache, u.rest.beneath, u⟩ p u := ⟨coherent, rfl⟩
  have emptied : Yields (fun s v => R s (Layer.inWriter v)) (w.cache.flush true) ⟨u.rest.held.cache, u.rest.beneath, u⟩
      fun _ v => Layer.StandsFor v p u ∧ (∀ a, a ∉ v.held.marks) ∧ ∀ a, v.held.value? a = none := by
    refine Ends.mono (laws.cache.flush_held true stands) fun o v hv => ?_
    rcases hv with ⟨after, ⟨rfl, unmarked, empty⟩ | ⟨_, fails⟩⟩
    · exact ⟨(), rfl, after, unmarked, empty rfl⟩
    · exact absurd fails Cache.Laws.not_putsFail
  refine (Laws.inWriter emptied).bind ?_
  intro _ u' hu
  obtain ⟨⟨cache, data, v⟩, ⟨⟨after, same⟩, unmarked, empty⟩, moved⟩ := hu
  obtain rfl : u = v := same.symm
  have held : Catalog.Coherent S (Function.update L w.key (some n)) [] u'.held u'.beneath := by
    rw [moved]
    exact lengths
  refine (laws.catalog.flush ⟨held, rfl⟩).mono ?_
  rintro _ ⟨x, names, _⟩ ⟨⟨lengths, rfl⟩, clean, order⟩
  subst moved
  exact ⟨⟨pointer, digest, lengths, after, rest⟩, ⟨unmarked, clean⟩, fun U _ => order U, empty⟩

/-! ## Sessions -/

/-- **Steps** come to the length and the table that their writes make, however they are flushed. -/
theorem steps (laws : w.Laws R scan) (steps : List Step) (fits : Takes w.rows.width n.toNat (bytes steps))
    (h : w.Opened S L r n p d u) :
    Yields R (steps.forM w.act) u fun _ u' => w.Opened S L r (written w.rows.width w.key steps n p).1
        (written w.rows.width w.key steps n p).2 (d.write (bytes steps)) u' ∧ u.KeepsOrder w.key u' := by
  induction steps generalizing n p d u with
  | nil => exact yields_pure () ⟨h, fun _ _ => id⟩
  | cons step steps ih =>
    cases step with
    | write buf =>
      obtain ⟨first, later⟩ := takes_append.1 fits
      refine (laws.write first h).bind ?_
      intro _ u₁ hu
      obtain ⟨opened, _, order, _⟩ := hu
      refine (ih later opened).mono ?_
      intro _ u' hu
      rw [bytes, Digest.write_append]
      exact ⟨hu.1, fun U used => hu.2 U used ∘ order U used⟩
    | flush =>
      refine (laws.flush h).bind ?_
      intro _ u₁ hu
      obtain ⟨opened, _, order, _⟩ := hu
      refine (ih fits opened).mono ?_
      intro _ u' hu
      exact ⟨hu.1, fun U used => hu.2 U used ∘ order U used⟩

/-- steps fail of which not all bytes can be taken -/
theorem steps_refused (laws : w.Laws R scan) (hw : 0 < w.rows.width) (steps : List Step)
    (unfit : ¬ Takes w.rows.width n.toNat (bytes steps))
    (absent : longestBuffer < w.rows.width → ∀ c, p.get w.key c = none) (h : w.Opened S L r n p d u) :
    Fails R (steps.forM w.act) u .tooLarge := by
  induction steps generalizing n p d u with
  | nil => exact absurd (.inl rfl) unfit
  | cons step steps ih =>
    cases step with
    | write buf =>
      by_cases first : Takes w.rows.width n.toNat buf
      · refine (laws.write first h).fails ?_
        intro _ u₁ hu
        refine ih (fun later => unfit (takes_append.2 ⟨first, later⟩)) (fun wide => ?_) hu.1
        obtain rfl := first.resolve_right fun narrow => Nat.not_lt.2 narrow.1 wide
        rw [List.length_nil, Layout.spans_zero]
        exact absent wide
      · exact (laws.write_refused hw first absent h).bind
    | flush =>
      refine (laws.flush h).fails ?_
      intro _ u₁ hu
      exact ih unfit absent hu.1

/-- **A session appends** what its steps write, however it is cut into writes and flushes. -/
theorem session (laws : w.Laws R scan) (hs : S w.key) (hw : 0 < w.rows.width) (fits : w.rows.width ≤ longestBuffer)
    (steps : List Step) (h : w.Stored S L t r b u) (small : b.length + (bytes steps).length < UInt64.size) :
    Yields R (w.session steps) u fun a u' => a = (UInt64.ofNat (b.length + (bytes steps).length), crc32 (bytes steps)) ∧
      w.Appends S L t r (b ++ bytes steps) (bytes steps) u' ∧ Flushed u' := by
  obtain ⟨known, holds, others, rfl⟩ := h
  -- the lengths found, in which the file may be missing
  obtain ⟨M, records, start, same⟩ : ∃ M, Catalog.Coherent S M [] u.held u.beneath ∧
      (M w.key).getD 0 = UInt64.ofNat b.length ∧
      ∀ n, Function.update M w.key (some n) = Function.update L w.key (some n) := by
    rcases known with known | ⟨rfl, unknown, none⟩
    · refine ⟨_, known, ?_, fun n => Function.update_idem ..⟩
      rw [Function.update_self]
      rfl
    · refine ⟨L, none, ?_, fun _ => rfl⟩
      rw [unknown]
      rfl
  have opens : Yields R w.reopen u fun _ u' =>
      w.Opened S M u.rest.rest (UInt64.ofNat b.length) u.rest.beneath {} u' := by
    refine (start_records laws.catalog w.rows hw hs ⟨records, rfl⟩).bind ?_
    rintro _ ⟨x, names, _⟩ ⟨rfl, ⟨lengths, rfl⟩, _⟩
    refine (Laws.rest ((laws.writer _ _).write _ _)).mono ?_
    intro _ _ hu
    obtain ⟨_, rfl, rfl⟩ := hu
    rw [start] at lengths ⊢
    exact ⟨rfl, rfl, lengths, .new _, rfl⟩
  refine opens.bind ?_
  intro _ u₁ opened
  have start' : (UInt64.ofNat b.length).toNat = b.length := UInt64.toNat_ofNat_of_lt (by omega)
  refine (laws.steps steps (.inr ⟨fits, by rwa [start']⟩) opened).bind ?_
  intro _ u₂ hu
  obtain ⟨opened, _⟩ := hu
  refine (Laws.rest ((laws.writer _ _).read u₂.rest)).bind ?_
  intro _ u₂ hu
  obtain ⟨v, ⟨rfl, rfl⟩, rfl⟩ := hu
  refine (laws.flush opened).bind ?_
  intro _ u' hu
  obtain ⟨⟨pointer, digest, lengths, cells, rest⟩, flushed, _⟩ := hu
  obtain ⟨stop, longer⟩ := written_holds hw holds steps small
  have total : (UInt64.ofNat (b ++ bytes steps).length).toNat = (b ++ bytes steps).length :=
    UInt64.toNat_ofNat_of_lt (by rwa [List.length_append])
  refine yields_pure _ ⟨?_, ⟨?_, digest, ?_, ⟨_, cells, longer, fun k hk c => ?_⟩, rest⟩, flushed⟩
  · rw [opened.pointer, opened.digest, stop, List.length_append]
    rfl
  · rw [pointer, stop, total]
  · rw [same, stop] at lengths
    exact lengths
  · rw [get_written hk, others k hk]

/-- **Sessions append** the bytes of all of them, and each reports where it ended and the CRC-32 of its own. -/
theorem sessions (laws : w.Laws R scan) (hs : S w.key) (hw : 0 < w.rows.width) (fits : w.rows.width ≤ longestBuffer)
    (first : List Step) (later : List (List Step)) (h : w.Stored S L t r b u)
    (small : b.length + ((first :: later).flatMap bytes).length < UInt64.size) :
    Yields R ((first :: later).mapM w.session) u fun as u' => as = reports b.length (first :: later) ∧
      (∃ mine, w.Appends S L t r (b ++ (first :: later).flatMap bytes) mine u') ∧ Flushed u' := by
  rw [List.flatMap_cons, List.length_append] at small
  induction later generalizing first b u with
  | nil =>
    rw [List.mapM_cons]
    refine (laws.session hs hw fits first h (by omega)).bind ?_
    intro _ u' hu
    obtain ⟨rfl, appends, flushed⟩ := hu
    refine yields_pure _ ⟨rfl, ⟨bytes first, ?_⟩, flushed⟩
    rw [List.flatMap_cons, List.flatMap_nil, List.append_nil]
    exact appends
  | cons second later ih =>
    rw [List.mapM_cons]
    refine (laws.session hs hw fits first h (by omega)).bind ?_
    intro _ u' hu
    obtain ⟨rfl, appends, flushed⟩ := hu
    have more : (b ++ bytes first).length + ((bytes second).length + (later.flatMap bytes).length) < UInt64.size := by
      rw [List.flatMap_cons, List.length_append] at small
      rw [List.length_append]
      omega
    refine (ih second (appends.stored flushed) more).bind ?_
    intro _ u'' hu
    obtain ⟨rfl, ⟨mine, after⟩, flushed⟩ := hu
    refine yields_pure _ ⟨?_, ⟨mine, ?_⟩, flushed⟩
    · rw [List.length_append]
      rfl
    · rw [List.append_assoc] at after
      exact after

end Laws

end Writer

end RowFiles
