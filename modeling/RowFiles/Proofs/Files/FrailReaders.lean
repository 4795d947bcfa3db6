/-
Readers over rows of which gets may be refused.

A reader looks at columns one after another, and keeps the last one it fetched. Where a get is refused it breaks off: the
columns fetched before are as good as ever, and the cursor has not moved yet. So what a reader answers is told by the row
and by where its cursor is (`Reader.answer`), whatever it keeps and whatever was refused before.

- `FrailLaws.column_tells`: a column is the row's, whether it is kept or fetched.
- `FrailLaws.readByte_tells`, `FrailLaws.readBytes_tells`: so are bytes at an offset, and they leave the cursor alone.
- `FrailLaws.read_tells`, `FrailLaws.seek_tells`: a read at the cursor, or a seek, moves it if it ends well.
- `FrailLaws.act_tells`: whatever a reader is asked for ends as the row says, or breaks off at a refusal.
-/
import RowFiles.Proofs.Files.Overwrites
import RowFiles.Proofs.Files.Readers

namespace RowFiles.Reader

open Run

variable {σ ρ : Type}

/-- what a reader builds on of which gets may be refused: `R none` shows the states in which none has been, and
`R (some e)` those in which one has, for the reason `e` -/
structure FrailLaws (d : Reader (Run σ)) (R : Option Error → σ → Layer ReaderState ρ → Prop) : Prop where
  cell : ∀ c v, Breaks R (d.rows.get d.key c) v (fun a w => a = v.beneath.get d.key c ∧ w = v) fun q e w =>
    q = some e ∧ w = v
  read : ∀ v, Yields (R none) d.state.read v fun x w => x = v.held ∧ w = v
  write : ∀ x v, Yields (R none) (d.state.write x) v fun _ w => w = { v with held := x }

/-- what a reader leaves that has looked at some columns: its cursor has not moved -/
structure Stays (d : Reader (Run σ)) (v w : Layer ReaderState ρ) : Prop extends d.Left v w where
  position : w.held.position = v.held.position

variable {d : Reader (Run σ)} {v w : Layer ReaderState ρ}

theorem Stays.refl (fresh : Fresh d.key v) : d.Stays v v := ⟨⟨fresh, rfl, rfl⟩, rfl⟩

theorem Stays.trans {u : Layer ReaderState ρ} (h : d.Stays v w) (h' : d.Stays w u) : d.Stays v u :=
  ⟨h.toLeft.trans h'.toLeft, h'.position.trans h.position⟩

/-! ## What the row says -/

section

variable (d : Reader (Run σ)) (t : Table Column) (position : UInt64)

/-- how many bytes a read at the cursor has to tell -/
def toTell (len : Nat) : Nat := min len (d.length.toNat - position.toNat)

/-- the byte at an offset -/
def byte (offset : UInt64) : Except Error UInt8 :=
  if d.rows.width = 0 then .error (.setting .zeroWidth) else .ok (Layout.byte d.rows.width t d.key offset.toNat)

/-- the bytes from an offset on -/
def stretch (offset : UInt64) (len : Nat) : Except Error Bytes :=
  if d.rows.width = 0 then .error (.setting .zeroWidth) else Layout.stretch d.rows.width t d.key offset.toNat len

/-- the bytes from the cursor on; where there are none, not even the width is looked at -/
def next (len : Nat) : Except Error Bytes :=
  if d.toTell position len = 0 then .ok [] else d.stretch t position (d.toTell position len)

theorem byte_of_pos {d : Reader (Run σ)} (hw : 0 < d.rows.width) (offset : UInt64) :
    d.byte t offset = .ok (Layout.byte d.rows.width t d.key offset.toNat) := if_neg (Nat.ne_of_gt hw)

theorem stretch_of_pos {d : Reader (Run σ)} (hw : 0 < d.rows.width) {offset : UInt64} {len : Nat}
    (short : len ≤ longestBuffer) (within : Layout.InRange offset.toNat len) :
    d.stretch t offset len = .ok (Layout.read d.rows.width t d.key offset.toNat len) := by
  rw [stretch, if_neg (Nat.ne_of_gt hw), Layout.stretch_of_fits _ _ short within]

theorem stretch_refused {d : Reader (Run σ)} (hw : 0 < d.rows.width) {offset : UInt64} {len : Nat}
    (long : ¬ (len ≤ longestBuffer ∧ Layout.InRange offset.toNat len)) : d.stretch t offset len = .error .tooLarge := by
  rw [stretch, if_neg (Nat.ne_of_gt hw), Layout.stretch_refused _ _ long]

/-- what a read at the cursor tells lies before the length, and so before the last position -/
theorem inRange_toTell (len : Nat) : Layout.InRange position.toNat (d.toTell position len) := by
  have := d.length.toNat_lt_size
  rw [Layout.InRange, toTell]
  omega

end

/-- the run ends as `o` says, with the cursor at `p` if that is well, or it breaks off where a get is refused; where it
does not end well, the cursor has not moved -/
def Tells {α : Type} (d : Reader (Run σ)) (R : Option Error → σ → Layer ReaderState ρ → Prop) (x : Run σ α)
    (v : Layer ReaderState ρ) (o : Except Error α) (p : UInt64) : Prop :=
  Breaks R x v (fun a w => o = .ok a ∧ d.Left v w ∧ w.held.position = p) fun q e w =>
    (q = some e ∨ q = none ∧ o = .error e) ∧ d.Stays v w

theorem Tells.map {α β : Type} {R : Option Error → σ → Layer ReaderState ρ → Prop} {x : Run σ α} {o : Except Error α}
    {p : UInt64} (f : α → β) (h : d.Tells R x v o p) : d.Tells R (f <$> x) v (f <$> o) p := by
  apply Breaks.map
  apply Breaks.mono h
  · rintro a w ⟨rfl, left⟩
    exact ⟨rfl, left⟩
  · rintro q e w ⟨refused | ⟨none, rfl⟩, stays⟩
    · exact ⟨.inl refused, stays⟩
    · exact ⟨.inr ⟨none, rfl⟩, stays⟩

namespace FrailLaws

variable {R : Option Error → σ → Layer ReaderState ρ → Prop}

theorem modify (laws : d.FrailLaws R) (f : ReaderState → ReaderState) (v : Layer ReaderState ρ) :
    Yields (R none) (d.state.modify f) v fun _ w => w = { v with held := f v.held } := by
  apply (laws.read v).next
  exact laws.write _ _

/-! ## Bytes at an offset -/

/-- **A column is the row's**, whether it is kept or fetched. -/
theorem column_tells (laws : d.FrailLaws R) (fresh : Fresh d.key v) (c : Column) :
    Breaks R (d.column c) v (fun cell w => cell = (v.beneath.get d.key c).getD [] ∧ d.Stays v w) fun q e w =>
      q = some e ∧ d.Stays v w := by
  have fetched : Breaks R (column.fetch d c) v
      (fun cell w => cell = (v.beneath.get d.key c).getD [] ∧ d.Stays v w) fun q e w => q = some e ∧ d.Stays v w := by
    apply Breaks.bind (laws.cell c v)
    · rintro _ w ⟨rfl, same⟩
      subst same
      apply (laws.modify _ w).step_breaks
      refine breaks_pure ⟨rfl, ⟨fun c' cell kept => ?_, rfl, rfl⟩, rfl⟩
      cases kept
      rfl
    · rintro q e _ ⟨rfl, rfl⟩
      exact ⟨rfl, .refl fresh⟩
  apply (laws.read v).next_breaks
  cases kept : v.held.current with
  | none => exact fetched
  | some p =>
    obtain ⟨c', cell⟩ := p
    dsimp only
    split_ifs with same
    · subst same
      exact breaks_pure ⟨fresh _ _ kept, .refl fresh⟩
    · exact fetched

theorem piece_tells (laws : d.FrailLaws R) (fresh : Fresh d.key v) (s : Layout.Span) :
    Breaks R (d.piece s) v
      (fun bs w => s.stop d.rows.width < UInt64.size ∧
        bs = Layout.slice ((v.beneath.get d.key s.columnNumber).getD []) s.offset s.size ∧ d.Stays v w)
      fun q e w => (q = some e ∨ q = none ∧ e = .tooLarge ∧ ¬ s.stop d.rows.width < UInt64.size) ∧ d.Stays v w := by
  apply Breaks.bind (laws.column_tells fresh s.columnNumber)
  · rintro _ w ⟨rfl, stays⟩
    by_cases fits : s.stop d.rows.width < UInt64.size
    · rw [checkWord_of_lt fits, pure_bind]
      exact breaks_pure ⟨fits, rfl, stays⟩
    · rw [checkWord_of_not_lt fits]
      exact Breaks.bind (P := fun _ _ => False) (breaks_throw ⟨.inr ⟨rfl, rfl, fits⟩, stays⟩) (fun _ _ => False.elim)
        fun _ _ _ refused => refused
  · rintro q e w ⟨refused, stays⟩
    exact ⟨.inl refused, stays⟩

/-- the pieces of a stretch are those of the row, as far as they are fetched and there is a position behind each -/
theorem pieces_tell (laws : d.FrailLaws R) (fresh : Fresh d.key v) (spans : List Layout.Span) :
    Breaks R (spans.mapM d.piece) v
      (fun bss w => (∀ s ∈ spans, s.stop d.rows.width < UInt64.size) ∧ bss = spans.map (fun s =>
        Layout.slice ((v.beneath.get d.key s.columnNumber).getD []) s.offset s.size) ∧ d.Stays v w)
      fun q e w => (q = some e ∨ q = none ∧ e = .tooLarge ∧ ¬ ∀ s ∈ spans, s.stop d.rows.width < UInt64.size) ∧
        d.Stays v w := by
  induction spans generalizing v with
  | nil => exact breaks_pure ⟨List.forall_mem_nil _, rfl, .refl fresh⟩
  | cons s spans ih =>
    rw [List.mapM_cons, List.forall_mem_cons]
    apply Breaks.bind (laws.piece_tells fresh s)
    · rintro _ w ⟨fits, rfl, stays⟩
      apply Breaks.bind (ih stays.fresh)
      · rintro _ u ⟨rest, rfl, stays'⟩
        rw [stays.beneath]
        exact breaks_pure ⟨⟨fits, rest⟩, rfl, stays.trans stays'⟩
      · rintro q e u ⟨why, stays'⟩
        exact ⟨why.imp id fun h => ⟨h.1, h.2.1, fun all => h.2.2 all.2⟩, stays.trans stays'⟩
    · rintro q e w ⟨why, stays⟩
      exact ⟨why.imp id fun h => ⟨h.1, h.2.1, fun all => h.2.2 all.1⟩, stays⟩

/-- **A byte is told** as it lies in its column, and as zero where the column has none. -/
theorem readByte_tells (laws : d.FrailLaws R) (fresh : Fresh d.key v) (offset : UInt64) :
    d.Tells R (d.readByte offset) v (d.byte v.beneath offset) v.held.position := by
  unfold readByte width byte
  split_ifs with none
  · exact breaks_throw (e := .setting .zeroWidth) ⟨.inr ⟨rfl, rfl⟩, .refl fresh⟩
  rw [pure_bind]
  apply Breaks.bind (laws.column_tells fresh _)
  · rintro _ w ⟨rfl, stays⟩
    exact breaks_pure ⟨rfl, stays.toLeft, stays.position⟩
  · rintro q e w ⟨refused, stays⟩
    exact ⟨.inl refused, stays⟩

/-- **A stretch is told** as it is read span by span from the row. -/
theorem readBytes_tells (laws : d.FrailLaws R) (fresh : Fresh d.key v) (offset : UInt64) (len : Nat) :
    d.Tells R (d.readBytes offset len) v (d.stretch v.beneath offset len) v.held.position := by
  rw [readBytes, width]
  by_cases none : d.rows.width = 0
  · rw [if_pos none, stretch, if_pos none]
    exact breaks_throw (e := .setting .zeroWidth) ⟨.inr ⟨rfl, rfl⟩, .refl fresh⟩
  have hw := Nat.pos_of_ne_zero none
  rw [if_neg none, pure_bind]
  split_ifs with long
  · rw [stretch_refused v.beneath hw fun fits => Nat.not_lt.2 fits.1 long]
    exact breaks_throw (e := .tooLarge) ⟨.inr ⟨rfl, rfl⟩, .refl fresh⟩
  apply Breaks.bind (laws.pieces_tell fresh _)
  · rintro _ w ⟨within, rfl, stays⟩
    rw [stretch_of_pos v.beneath hw (Nat.le_of_not_lt long) ((Layout.stops_iff hw _ _).1 within)]
    exact breaks_pure ⟨rfl, stays.toLeft, stays.position⟩
  · rintro q e w ⟨refused | ⟨calm, rfl, beyond⟩, stays⟩
    · exact ⟨.inl refused, stays⟩
    · rw [stretch_refused v.beneath hw fun fits => beyond ((Layout.stops_iff hw _ _).2 fits.2)]
      exact ⟨.inr ⟨calm, rfl⟩, stays⟩

/-! ## The cursor -/

/-- what is left to read up to the end -/
theorem remaining_tells (laws : d.FrailLaws R) (v : Layer ReaderState ρ) :
    Yields (R none) d.remaining v fun n w => n = d.length.toNat - v.held.position.toNat ∧ w = v := by
  apply (laws.read v).next
  exact yields_pure _ ⟨rfl, rfl⟩

/-- **A read at the cursor** tells the bytes from there on, as far as the length goes, and moves past them. -/
theorem read_tells (laws : d.FrailLaws R) (fresh : Fresh d.key v) (len : Nat) :
    d.Tells R (d.read len) v (d.next v.beneath v.held.position len)
      (v.held.position + UInt64.ofNat (d.toTell v.held.position len)) := by
  apply (laws.remaining_tells v).next_breaks
  rw [← toTell, next]
  dsimp only
  split_ifs with nothing
  · rw [nothing]
    exact breaks_pure ⟨rfl, ⟨fresh, rfl, rfl⟩, (UInt64.add_zero _).symm⟩
  apply (laws.read v).next_breaks
  apply Breaks.bind (laws.readBytes_tells fresh v.held.position _)
  · rintro bs w ⟨told, left, still⟩
    apply (laws.modify _ w).step_breaks
    exact breaks_pure ⟨told, ⟨left.fresh, left.beneath, left.rest⟩, by rw [still]⟩
  · rintro q e w ⟨refused | ⟨none, failed⟩, stays⟩
    · exact ⟨.inl refused, stays⟩
    · exact ⟨.inr ⟨none, failed⟩, stays⟩

/-- **A seek** moves the cursor where it leads, and asks the row for nothing. -/
theorem seek_tells (laws : d.FrailLaws R) (goal : SeekFrom) (v : Layer ReaderState ρ) :
    Breaks R (d.seek goal) v
      (fun p w => d.target v.held.position goal = some p ∧ w = { v with held := { v.held with position := p } })
      fun q e w => d.target v.held.position goal = none ∧ q = none ∧ e = .stream .seekRange ∧ w = v := by
  apply (laws.read v).next_breaks
  cases leads : d.target v.held.position goal with
  | none => exact breaks_throw ⟨rfl, rfl, rfl, rfl⟩
  | some p =>
    apply (laws.modify _ v).step_breaks
    exact breaks_pure ⟨rfl, rfl⟩

end FrailLaws

/-! ## What a reader is asked for -/

inductive Step where
  | byteAt (offset : UInt64)
  | bytesAt (offset : UInt64) (len : Nat)
  | read (len : Nat)
  | seek (goal : SeekFrom)
deriving DecidableEq, Repr

inductive Answer where
  | byte (x : UInt8)
  | bytes (bs : Bytes)
  | position (p : UInt64)
deriving DecidableEq, Repr

def act {m : Type → Type} [Monad m] [MonadExceptOf Error m] (r : Reader m) : Step → m Answer
  | .byteAt offset => .byte <$> r.readByte offset
  | .bytesAt offset len => .bytes <$> r.readBytes offset len
  | .read len => .bytes <$> r.read len
  | .seek goal => .position <$> r.seek goal

/-- what is answered over the row of the table `t` with the cursor at `position` -/
def answer (d : Reader (Run σ)) (t : Table Column) (position : UInt64) : Step → Except Error Answer
  | .byteAt offset => .byte <$> d.byte t offset
  | .bytesAt offset len => .bytes <$> d.stretch t offset len
  | .read len => .bytes <$> d.next t position len
  | .seek goal =>
    match d.target position goal with
    | none => .error (.stream .seekRange)
    | some p => .ok (.position p)

/-- where a step that ends well leaves the cursor -/
def moved (d : Reader (Run σ)) (position : UInt64) : Step → UInt64
  | .byteAt _ | .bytesAt .. => position
  | .read len => position + UInt64.ofNat (d.toTell position len)
  | .seek goal => (d.target position goal).getD position

/-- **Whatever a reader is asked for** ends as the row says, or breaks off where a get is refused. -/
theorem FrailLaws.act_tells {R : Option Error → σ → Layer ReaderState ρ → Prop} (laws : d.FrailLaws R)
    (fresh : Fresh d.key v) (step : Step) :
    d.Tells R (d.act step) v (d.answer v.beneath v.held.position step) (d.moved v.held.position step) := by
  cases step with
  | byteAt offset => exact (laws.readByte_tells fresh offset).map _
  | bytesAt offset len => exact (laws.readBytes_tells fresh offset len).map _
  | read len => exact (laws.read_tells fresh len).map _
  | seek goal =>
    apply Breaks.map
    apply Breaks.mono (laws.seek_tells goal v)
    · rintro p _ ⟨leads, rfl⟩
      rw [answer, moved, leads]
      exact ⟨rfl, ⟨fresh, rfl, rfl⟩, rfl⟩
    · rintro _ _ _ ⟨leads, rfl, rfl, rfl⟩
      rw [answer, leads]
      exact ⟨.inr ⟨rfl, rfl⟩, .refl fresh⟩

end RowFiles.Reader
