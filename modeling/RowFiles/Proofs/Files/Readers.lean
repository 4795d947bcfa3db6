/-
Readers at offsets. A reader keeps the last column it fetched, which is the row's as long as the row does not change
(`Reader.Fresh`). So it reads any stretch of the row as it is, in any order, unless that is too long for a buffer or for
positions of 64 bits (`Reader.readBytes_ends`), and of a row that holds bytes a stretch of these, with zeros past their
end (`Reader.readBytes_holds`).
-/
import RowFiles.Files.Reader
import RowFiles.Proofs.Files.Layout
import RowFiles.Proofs.Store.Layers

namespace RowFiles.Reader

open Run

variable {σ ρ : Type}

/-- what a reader builds on: the cells of its row are told, and what it holds is a part to read and write -/
structure Laws (d : Reader (Run σ)) (R : σ → Layer ReaderState ρ → Prop) : Prop where
  cell : ∀ c v, Yields R (d.rows.get d.key c) v fun a w => a = v.beneath.get d.key c ∧ w = v
  read : ∀ v, Yields R d.state.read v fun x w => x = v.held ∧ w = v
  write : ∀ x v, Yields R (d.state.write x) v fun _ w => w = { v with held := x }

/-- the column that is kept is the row's -/
def Fresh (key : Key) (v : Layer ReaderState ρ) : Prop :=
  ∀ c cell, v.held.current = some (c, cell) → cell = (v.beneath.get key c).getD []

/-- what a reader leaves: nothing has changed but its own state -/
structure Left (d : Reader (Run σ)) (v w : Layer ReaderState ρ) : Prop where
  fresh : Fresh d.key w
  beneath : w.beneath = v.beneath
  rest : w.rest = v.rest

variable {d : Reader (Run σ)} {R : σ → Layer ReaderState ρ → Prop} {v w : Layer ReaderState ρ} {b : Bytes}

/-- a reader over rows that serve a table -/
theorem laws_of_layered {scan : List Bytes → List Bytes → Prop} (laws : Layered d.rows d.state R scan never) :
    d.Laws R where
  cell c v := by
    refine ((Layered.beneath ((laws.inner _ _).get _ c _)).yields id).mono ?_
    intro _ _ h
    obtain ⟨_, ⟨rfl, rfl⟩, rfl⟩ := h
    exact ⟨rfl, rfl⟩
  read := laws.read
  write := laws.write

theorem Left.trans {u : Layer ReaderState ρ} (h : d.Left v w) (h' : d.Left w u) : d.Left v u :=
  ⟨h'.fresh, h'.beneath.trans h.beneath, h'.rest.trans h.rest⟩

theorem Laws.modify (laws : d.Laws R) (f : ReaderState → ReaderState) (v : Layer ReaderState ρ) :
    Yields R (d.state.modify f) v fun _ w => w = { v with held := f v.held } := by
  refine (laws.read v).next ?_
  exact laws.write _ _

/-- a column is the row's, whether it is kept or fetched -/
theorem column_eq (laws : d.Laws R) (fresh : Fresh d.key v) (c : Column) :
    Yields R (d.column c) v fun cell w => cell = (v.beneath.get d.key c).getD [] ∧ d.Left v w := by
  have fetched : Yields R (column.fetch d c) v fun cell w => cell = (v.beneath.get d.key c).getD [] ∧ d.Left v w := by
    refine (laws.cell c v).next ?_
    refine (laws.modify _ v).step ?_
    refine yields_pure _ ⟨rfl, fun c' cell e => ?_, rfl, rfl⟩
    cases e
    rfl
  refine (laws.read v).next ?_
  cases kept : v.held.current with
  | none => exact fetched
  | some p =>
    obtain ⟨c', cell⟩ := p
    dsimp only
    split_ifs with same
    · subst same
      exact yields_pure _ ⟨fresh _ _ kept, fresh, rfl, rfl⟩
    · exact fetched

/-! ## Stretches -/

/-- a reader that looks at columns finds cells of which `P` holds, and keeps `J` -/
def Looks (d : Reader (Run σ)) (R : σ → Layer ReaderState ρ → Prop) (J : Layer ReaderState ρ → Prop)
    (P : Column → Bytes → Prop) : Prop :=
  ∀ c v, J v → Yields R (d.column c) v fun cell w => P c cell ∧ J w

/-- the outcome is a value of which `Q` holds if all fits, and else that something is too large -/
def Sized {α : Type} (fits : Prop) (o : Except Error α) (Q : α → Prop) : Prop :=
  (fits ∧ ∃ a, o = .ok a ∧ Q a) ∨ (¬ fits ∧ o = .error .tooLarge)

/-- the bytes of a span, cut from a cell of which `P` holds -/
def Cut (P : Column → Bytes → Prop) (s : Layout.Span) (bs : Bytes) : Prop :=
  ∃ cell, P s.columnNumber cell ∧ bs = Layout.slice cell s.offset s.size

section

variable {J : Layer ReaderState ρ → Prop} {P : Column → Bytes → Prop}

/-- a piece is read if there is a position behind it -/
theorem piece_ends (looks : d.Looks R J P) (h : J v) (s : Layout.Span) :
    Ends R (d.piece s) v fun o w => J w ∧ Sized (s.stop d.rows.width < UInt64.size) o (Cut P s) := by
  refine (looks s.columnNumber v h).ends ?_
  intro cell w hw
  obtain ⟨here, kept⟩ := hw
  by_cases fits : s.stop d.rows.width < UInt64.size
  · rw [checkWord_of_lt fits, pure_bind]
    exact ends_pure _ ⟨kept, .inl ⟨fits, _, rfl, cell, here, rfl⟩⟩
  · rw [checkWord_of_not_lt fits]
    exact Ends.bind (ends_throw _ (.inr ⟨_, rfl, kept, .inr ⟨fits, rfl⟩⟩))

/-- pieces are read up to one behind which there is no position -/
theorem pieces_end (looks : d.Looks R J P) (h : J v) (spans : List Layout.Span) :
    Ends R (spans.mapM d.piece) v fun o w => J w ∧
      Sized (∀ s ∈ spans, s.stop d.rows.width < UInt64.size) o (List.Forall₂ (Cut P) spans) := by
  induction spans generalizing v with
  | nil => exact ends_pure _ ⟨h, .inl ⟨List.forall_mem_nil _, [], rfl, .nil⟩⟩
  | cons s spans ih =>
    rw [List.mapM_cons, List.forall_mem_cons]
    refine Ends.bind (Ends.mono (d.piece_ends looks h s) fun o w hw => ?_)
    obtain ⟨kept, ⟨fits, bs, rfl, cut⟩ | ⟨beyond, rfl⟩⟩ := hw
    · refine .inl ⟨bs, rfl, Ends.bind (Ends.mono (ih kept) fun o u hu => ?_)⟩
      obtain ⟨kept', ⟨rest, bss, rfl, cuts⟩ | ⟨beyond, rfl⟩⟩ := hu
      · exact .inl ⟨bss, rfl, ends_pure _ ⟨kept', .inl ⟨⟨fits, rest⟩, _, rfl, .cons cut cuts⟩⟩⟩
      · exact .inr ⟨_, rfl, kept', .inr ⟨fun all => beyond all.2, rfl⟩⟩
    · exact .inr ⟨_, rfl, kept, .inr ⟨fun all => beyond all.1, rfl⟩⟩

/-- a stretch longer than any buffer is not even looked at -/
theorem readBytes_long (d : Reader (Run σ)) (hw : 0 < d.rows.width) (offset : UInt64) {len : Nat}
    (long : longestBuffer < len) : d.readBytes offset len = throw .tooLarge := by
  rw [readBytes, width, if_neg (Nat.ne_of_gt hw), pure_bind, if_pos long]
  funext s
  rw [bind_of_error (throw_apply _ s), throw_apply]

/-- **A stretch is cut from columns** one after another, if a buffer takes it and there is a position behind it. -/
theorem readBytes_cut (looks : d.Looks R J P) (hw : 0 < d.rows.width) (h : J v) (offset : UInt64) (len : Nat) :
    Ends R (d.readBytes offset len) v fun o w => J w ∧
      Sized (len ≤ longestBuffer ∧ Layout.InRange offset.toNat len) o fun bs =>
        ∃ bss, bs = bss.flatten ∧ List.Forall₂ (Cut P) (Layout.spans d.rows.width offset.toNat len) bss := by
  by_cases long : longestBuffer < len
  · rw [d.readBytes_long hw offset long]
    exact ends_throw _ ⟨h, .inr ⟨fun fits => Nat.not_lt.2 fits.1 long, rfl⟩⟩
  rw [readBytes, width, if_neg (Nat.ne_of_gt hw), pure_bind, if_neg long]
  refine Ends.bind (Ends.mono (d.pieces_end looks h _) fun o w told => ?_)
  rw [Layout.stops_iff hw] at told
  obtain ⟨kept, ⟨within, bss, rfl, cuts⟩ | ⟨beyond, rfl⟩⟩ := told
  · exact .inl ⟨bss, rfl, ends_pure _ ⟨kept, .inl ⟨⟨Nat.le_of_not_lt long, within⟩, _, rfl, bss, rfl, cuts⟩⟩⟩
  · exact .inr ⟨_, rfl, kept, .inr ⟨fun fits => beyond fits.2, rfl⟩⟩

end

/-- cells that are known have known pieces -/
theorem eq_map_of_cuts {f : Column → Bytes} {spans : List Layout.Span} {bss : List Bytes}
    (cuts : List.Forall₂ (Cut fun c cell => cell = f c) spans bss) :
    bss = spans.map fun s => Layout.slice (f s.columnNumber) s.offset s.size := by
  induction cuts with
  | nil => rfl
  | cons cut _ ih =>
    obtain ⟨_, rfl, rfl⟩ := cut
    rw [List.map_cons, ih]

/-- the columns of a row that does not change are found as they are -/
theorem Laws.looks (laws : d.Laws R) (v : Layer ReaderState ρ) :
    d.Looks R (d.Left v) fun c cell => cell = (v.beneath.get d.key c).getD [] := by
  intro c u left
  refine (d.column_eq laws left.fresh c).mono ?_
  intro _ w h
  obtain ⟨rfl, left'⟩ := h
  rw [left.beneath]
  exact ⟨rfl, left.trans left'⟩

/-- **A stretch of the row is read** span by span, whatever the row is, as far as it can be. -/
theorem readBytes_ends (laws : d.Laws R) (hw : 0 < d.rows.width) (fresh : Fresh d.key v) (offset : UInt64) (len : Nat) :
    Ends R (d.readBytes offset len) v fun o w =>
      o = Layout.stretch d.rows.width v.beneath d.key offset.toNat len ∧ d.Left v w := by
  refine Ends.mono (d.readBytes_cut (laws.looks v) hw ⟨fresh, rfl, rfl⟩ offset len) fun o w h => ?_
  obtain ⟨left, ⟨⟨short, within⟩, _, rfl, bss, rfl, cuts⟩ | ⟨unfit, rfl⟩⟩ := h
  · rw [Layout.stretch_of_fits _ _ short within, eq_map_of_cuts cuts]
    exact ⟨rfl, left⟩
  · rw [Layout.stretch_refused _ _ unfit]
    exact ⟨rfl, left⟩

theorem readBytes_eq (laws : d.Laws R) (hw : 0 < d.rows.width) (fresh : Fresh d.key v) (offset : UInt64) {len : Nat}
    (short : len ≤ longestBuffer) (within : Layout.InRange offset.toNat len) :
    Yields R (d.readBytes offset len) v fun bs w =>
      bs = Layout.read d.rows.width v.beneath d.key offset.toNat len ∧ d.Left v w := by
  refine Ends.mono (readBytes_ends laws hw fresh offset len) fun o w h => ?_
  obtain ⟨rfl, left⟩ := h
  exact ⟨_, Layout.stretch_of_fits _ _ short within, rfl, left⟩

/-- **A stretch of the row's bytes is read**, with zeros past their end. -/
theorem readBytes_holds (laws : d.Laws R) (hw : 0 < d.rows.width) (fresh : Fresh d.key v)
    (holds : Layout.Holds d.rows.width v.beneath d.key b) {offset : UInt64} {len : Nat} (short : len ≤ longestBuffer)
    (small : offset.toNat + len < UInt64.size) :
    Yields R (d.readBytes offset len) v fun bs w => bs = Layout.slice b offset.toNat len ∧ d.Left v w := by
  rw [← holds.pieces hw (Nat.le_of_lt small)]
  exact readBytes_eq laws hw fresh offset short (.inr small)

end RowFiles.Reader
