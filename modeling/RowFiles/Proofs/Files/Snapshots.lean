/-
Readers are snapshots while writers append.

A reader keeps the last column it fetched. Writers opened one after another on its file rewrite the column at the end and
those after it, so the column kept may be older than the row. But no write changes a byte below where it starts, which is
at the recorded length or beyond. So of the bytes that were recorded when the reader was opened, the row, the cache of the
writer at work and the column kept all tell the same (`Reader.Recalls`, `Desk.Works`).

- `Reader.readByte_recalls`, `Reader.readBytes_recalls`, `Reader.read_recalls`: what a reader tells from there.
- `Desk.snapshot_step`, `readers_are_snapshots`: whatever readers and writers do in between, every byte told at an offset
  below the length is that of the snapshot, and the cursor reads the snapshot and stops at its end.
-/
import RowFiles.Proofs.Files.FrailWriters
import RowFiles.Proofs.Files.RoundTrip

namespace RowFiles

open Run

/-! ## Reading from a snapshot -/

/-- the cell has the bytes of `s` that lie in its column, whatever it has after them -/
def Layout.Recalls (w : Nat) (s : Bytes) (c : Column) (cell : Bytes) : Prop :=
  ∀ j < w, c.toNat * w + j < s.length → cell.getD j 0 = s.getD (c.toNat * w + j) 0

/-- the cell of a position tells the bytes from there to its end -/
theorem Layout.Recalls.getD {w pos i : Nat} {s cell : Bytes} (h : Layout.Recalls w s (UInt64.ofNat (pos / w)) cell)
    (inside : pos % w + i < w) (small : pos < UInt64.size) (there : pos + i < s.length) :
    cell.getD (pos % w + i) 0 = s.getD (pos + i) 0 := by
  have number : (UInt64.ofNat (pos / w)).toNat = pos / w :=
    UInt64.toNat_ofNat_of_lt (Nat.lt_of_le_of_lt (Nat.div_le_self ..) small)
  have place : pos / w * w + (pos % w + i) = pos + i := by rw [← Nat.add_assoc, Nat.mul_comm, Nat.div_add_mod]
  have told := h (pos % w + i) inside
  rw [number, place] at told
  exact told there

/-- every cell of a row of which the first bytes are known has them -/
theorem Layout.recalls_of_whole {w : Nat} (hw : 0 < w) {t : Table Column} {k : Key} {s : Bytes}
    (whole : Layout.read w t k 0 s.length = s) (c : Column) : Layout.Recalls w s c ((t.get k c).getD []) := by
  intro j hj there
  have here := Layout.byte_of_whole hw whole there
  have column : (c.toNat * w + j) / w = c.toNat := by
    rw [Nat.mul_comm, Nat.mul_add_div hw, Nat.div_eq_of_lt hj, Nat.add_zero]
  have offset : (c.toNat * w + j) % w = j := by rw [Nat.mul_comm, Nat.mul_add_mod, Nat.mod_eq_of_lt hj]
  rwa [Layout.byte, column, offset, UInt64.ofNat_toNat] at here

namespace Reader

variable {σ ρ : Type} {d : Reader (Run σ)} {R : σ → Layer ReaderState ρ → Prop} {v w : Layer ReaderState ρ} {s : Bytes}

/-- the row and the column that is kept have the bytes of the snapshot `s` -/
structure Recalls (d : Reader (Run σ)) (s : Bytes) (v : Layer ReaderState ρ) : Prop where
  kept : ∀ c cell, v.held.current = some (c, cell) → Layout.Recalls d.rows.width s c cell
  stored : ∀ c, Layout.Recalls d.rows.width s c ((v.beneath.get d.key c).getD [])

/-- what a reader leaves that has looked at some columns -/
structure Looked (d : Reader (Run σ)) (s : Bytes) (v w : Layer ReaderState ρ) : Prop where
  recalls : d.Recalls s w
  position : w.held.position = v.held.position
  beneath : w.beneath = v.beneath
  rest : w.rest = v.rest

theorem Recalls.looked (h : d.Recalls s v) : d.Looked s v v := ⟨h, rfl, rfl, rfl⟩

theorem Looked.trans {u : Layer ReaderState ρ} (h : d.Looked s v w) (h' : d.Looked s w u) : d.Looked s v u :=
  ⟨h'.recalls, h'.position.trans h.position, h'.beneath.trans h.beneath, h'.rest.trans h.rest⟩

/-- a column has the bytes of the snapshot, whether it is kept or fetched -/
theorem column_recalls (laws : d.Laws R) (h : d.Recalls s v) (c : Column) :
    Yields R (d.column c) v fun cell w => Layout.Recalls d.rows.width s c cell ∧ d.Looked s v w := by
  have fetched : Yields R (column.fetch d c) v fun cell w => Layout.Recalls d.rows.width s c cell ∧ d.Looked s v w := by
    refine (laws.cell c v).next ?_
    refine (laws.modify _ v).step ?_
    refine yields_pure _ ⟨h.stored c, ⟨fun c' cell e => ?_, h.stored⟩, rfl, rfl, rfl⟩
    cases e
    exact h.stored c
  refine (laws.read v).next ?_
  cases kept : v.held.current with
  | none => exact fetched
  | some p =>
    obtain ⟨c', cell⟩ := p
    dsimp only
    split_ifs with same
    · subst same
      exact yields_pure _ ⟨h.kept _ _ kept, h.looked⟩
    · exact fetched

theorem readByte_recalls (laws : d.Laws R) (hw : 0 < d.rows.width) (h : d.Recalls s v) (offset : UInt64) :
    Yields R (d.readByte offset) v fun x w =>
      (offset.toNat < s.length → x = s.getD offset.toNat 0) ∧ d.Looked s v w := by
  rw [readByte, width, if_neg (Nat.ne_of_gt hw), pure_bind]
  refine (d.column_recalls laws h _).bind ?_
  intro cell w hc
  obtain ⟨recalls, looked⟩ := hc
  exact yields_pure _ ⟨recalls.getD (i := 0) (Nat.mod_lt _ hw) offset.toNat_lt_size, looked⟩

/-- pieces of cells that have the bytes of the snapshot, put together -/
theorem recalled_of_cuts {w : Nat} (hw : 0 < w) (small : s.length ≤ UInt64.size) {pos len : Nat} {bss : List Bytes}
    (cuts : List.Forall₂ (Cut (Layout.Recalls w s)) (Layout.spans w pos len) bss) :
    bss.flatten.length = len ∧ ∀ i < len, pos + i < s.length → bss.flatten.getD i 0 = s.getD (pos + i) 0 := by
  induction pos, len using Layout.stretch_induction hw generalizing bss with
  | nil pos =>
    rw [Layout.spans_zero] at cuts
    cases cuts
    exact ⟨rfl, fun i hi => absurd hi (Nat.not_lt_zero i)⟩
  | cons pos len some ih =>
    have le := Layout.run_le (w := w) pos len
    have inside := Layout.offset_add_run_le hw pos len
    rw [Layout.spans_cons hw pos some] at cuts
    obtain ⟨_, bss, ⟨cell, recalls, rfl⟩, rest, rfl⟩ := List.forall₂_cons_left_iff.1 cuts
    obtain ⟨length, later⟩ := ih rest
    dsimp only
    refine ⟨?_, fun i hi there => ?_⟩
    · rw [List.flatten_cons, List.length_append, Layout.length_slice, length]
      omega
    rw [List.flatten_cons, List.getD_eq_getElem?_getD]
    rcases Nat.lt_or_ge i (Layout.run w pos len) with early | late
    · -- in the first column
      rw [List.getElem?_append_left (by rwa [Layout.length_slice]), ← List.getD_eq_getElem?_getD, Layout.getD_slice,
        if_pos early, recalls.getD (by omega) (by omega) there]
    · have past : pos + Layout.run w pos len + (i - Layout.run w pos len) = pos + i := by omega
      rw [List.getElem?_append_right (by rwa [Layout.length_slice]), Layout.length_slice, ← List.getD_eq_getElem?_getD,
        later _ (by omega) (by omega), past]

/-- **A stretch that is read** has as many bytes as were asked for, and those of the snapshot as far as it goes. -/
theorem readBytes_recalls (laws : d.Laws R) (hw : 0 < d.rows.width) (small : s.length ≤ UInt64.size) (h : d.Recalls s v)
    (offset : UInt64) (len : Nat) :
    Ends R (d.readBytes offset len) v fun o w => d.Looked s v w ∧
      Sized (len ≤ longestBuffer ∧ Layout.InRange offset.toNat len) o fun bs =>
        bs.length = len ∧ ∀ i < len, offset.toNat + i < s.length → bs.getD i 0 = s.getD (offset.toNat + i) 0 := by
  have looks : d.Looks R (d.Looked s v) (Layout.Recalls d.rows.width s) := fun c u looked => by
    refine (d.column_recalls laws looked.recalls c).mono ?_
    intro _ w hc
    exact ⟨hc.1, looked.trans hc.2⟩
  refine Ends.mono (d.readBytes_cut looks hw h.looked offset len) fun o w told => ?_
  obtain ⟨looked, ⟨fits, _, rfl, bss, rfl, cuts⟩ | unfit⟩ := told
  · exact ⟨looked, .inl ⟨fits, _, rfl, recalled_of_cuts hw small cuts⟩⟩
  · exact ⟨looked, .inr unfit⟩

/-! ### The cursor -/

/-- what is left of the snapshot from the cursor on, at most `len` bytes -/
def ahead (s : Bytes) (position : UInt64) (len : Nat) : Bytes := (s.drop position.toNat).take len

theorem length_ahead (s : Bytes) (position : UInt64) (len : Nat) :
    (ahead s position len).length = min len (s.length - position.toNat) := by
  rw [ahead, List.length_take, List.length_drop]

/-- **A read at the cursor** tells what is left of the snapshot and moves past it, or fails if it is more than any buffer
holds. -/
theorem read_recalls (laws : d.Laws R) (hw : 0 < d.rows.width) (stop : d.length.toNat = s.length) (h : d.Recalls s v)
    (len : Nat) :
    Ends R (d.read len) v fun o w => d.Recalls s w ∧ w.beneath = v.beneath ∧ w.rest = v.rest ∧
      if longestBuffer < (ahead s v.held.position len).length then
        o = .error .tooLarge ∧ w.held.position = v.held.position
      else
        o = .ok (ahead s v.held.position len) ∧
          w.held.position.toNat = v.held.position.toNat + (ahead s v.held.position len).length := by
  have count := length_ahead s v.held.position len
  have small : s.length < UInt64.size := stop ▸ d.length.toNat_lt_size
  have left : Yields R d.remaining v fun n w => n = s.length - v.held.position.toNat ∧ w = v := by
    refine (laws.read v).next ?_
    exact yields_pure _ ⟨by rw [stop], rfl⟩
  refine left.next ?_
  rw [← count]
  by_cases none : (ahead s v.held.position len).length = 0
  · rw [if_pos none]
    refine ends_pure [] ⟨h, rfl, rfl, ?_⟩
    rw [List.eq_nil_of_length_eq_zero none]
    exact ⟨rfl, rfl⟩
  rw [if_neg none]
  refine (laws.read v).next ?_
  have within : Layout.InRange v.held.position.toNat (ahead s v.held.position len).length := by
    rw [Layout.InRange]
    omega
  have stretch := d.readBytes_recalls laws hw (Nat.le_of_lt small) h v.held.position (ahead s v.held.position len).length
  split_ifs with long
  · refine Ends.bind (Ends.mono stretch fun o w told => ?_)
    obtain ⟨looked, ⟨⟨short, _⟩, _⟩ | ⟨_, rfl⟩⟩ := told
    · exact absurd short (Nat.not_le.2 long)
    · exact .inr ⟨_, rfl, looked.recalls, looked.beneath, looked.rest, rfl, looked.position⟩
  refine Ends.bind (Ends.mono stretch fun o w told => ?_)
  obtain ⟨looked, ⟨_, bs, rfl, length, told⟩ | ⟨unfit, _⟩⟩ := told
  swap
  · exact absurd ⟨Nat.not_lt.1 long, within⟩ unfit
  refine .inl ⟨bs, rfl, ?_⟩
  have bytes : bs = ahead s v.held.position len := by
    refine List.ext_getElem length fun i hi hb => ?_
    have there : v.held.position.toNat + i < s.length := by omega
    have here := told i hb there
    rw [List.getD_eq_getElem?_getD, List.getElem?_eq_getElem hi, List.getD_eq_getElem?_getD,
      List.getElem?_eq_getElem there] at here
    simpa [ahead] using here
  refine (laws.modify _ w).step ?_
  refine ends_pure bs ⟨⟨looked.recalls.kept, looked.recalls.stored⟩, looked.beneath, looked.rest, by rw [bytes], ?_⟩
  have fits : (UInt64.ofNat (ahead s v.held.position len).length).toNat = (ahead s v.held.position len).length :=
    UInt64.toNat_ofNat_of_lt (by omega)
  rw [looked.position, UInt64.toNat_add, fits, Nat.mod_eq_of_lt (by show _ < UInt64.size; omega)]

/-- where a seek leads, seen from a cursor over `s` -/
def landing (s : Bytes) (position : UInt64) : SeekFrom → Int
  | .start p => p.toNat
  | .current d => position.toNat + d
  | .stop d => s.length + d

/-- a seek leads to its landing, if that is a position -/
theorem target_eq (stop : d.length.toNat = s.length) (position : UInt64) (goal : SeekFrom) :
    d.target position goal =
      if 0 ≤ landing s position goal ∧ landing s position goal < UInt64.size then
        some (UInt64.ofNat (landing s position goal).toNat)
      else none := by
  cases goal with
  | start p =>
    have inside : (0 : Int) ≤ p.toNat ∧ (p.toNat : Int) < UInt64.size :=
      ⟨Int.natCast_nonneg _, Int.ofNat_lt.2 p.toNat_lt_size⟩
    rw [landing, if_pos inside, Int.toNat_natCast, UInt64.ofNat_toNat]
    rfl
  | current _ => rfl
  | stop _ =>
    rw [landing, ← stop]
    rfl

theorem seek_recalls (laws : d.Laws R) (stop : d.length.toNat = s.length) (h : d.Recalls s v) (goal : SeekFrom) :
    Ends R (d.seek goal) v fun o w => d.Recalls s w ∧ w.beneath = v.beneath ∧ w.rest = v.rest ∧
      if 0 ≤ landing s v.held.position goal ∧ landing s v.held.position goal < UInt64.size then
        o = .ok w.held.position ∧ w.held.position.toNat = landing s v.held.position goal
      else o = .error (.stream .seekRange) ∧ w.held.position = v.held.position := by
  refine (laws.read v).next ?_
  rw [target_eq stop]
  split_ifs with inside
  · refine (laws.modify _ v).step ?_
    refine ends_pure _ ⟨⟨h.kept, h.stored⟩, rfl, rfl, rfl, ?_⟩
    have fits : (UInt64.ofNat (landing s v.held.position goal).toNat).toNat = (landing s v.held.position goal).toNat :=
      UInt64.toNat_ofNat_of_lt (by omega)
    show (((UInt64.ofNat (landing s v.held.position goal).toNat).toNat : Nat) : Int) = _
    rw [fits, Int.toNat_of_nonneg inside.1]
  · exact ends_throw _ ⟨h, rfl, rfl, rfl, rfl⟩

end Reader

/-! ## A desk at which a reader and writers work -/

namespace Desk

inductive Step where
  /-- opens a writer, which takes the place of the one before it -/
  | start
  | write (buf : Bytes)
  | flush
  | close
  | byteAt (offset : UInt64)
  | bytesAt (offset : UInt64) (len : Nat)
  | read (len : Nat)
  | seek (goal : SeekFrom)

inductive Answer where
  | done
  | byte (x : UInt8)
  | bytes (bs : Bytes)
  | position (p : UInt64)
deriving DecidableEq, Repr

/-- how many bytes a step writes -/
def Step.size : Step → Nat
  | .write buf => buf.length
  | _ => 0

/-- the step needs a writer -/
def Step.writes : Step → Bool
  | .write _ | .flush | .close => true
  | _ => false

/-- a writer is opened before one is used -/
def opensFirst : List Step → Bool
  | [] | .start :: _ => true
  | step :: steps => !step.writes && opensFirst steps

section

variable (walkKeys : Nat → List Key → List Key) (walkCells : Nat → List (Address Column) → List (Address Column))
  (width nameWidth : Nat) (key : Key) (length : UInt64)

def act : Step → Run Desk Answer
  | .start => (fun _ => .done) <$> (writerOf walkKeys walkCells width nameWidth key).reopen
  | .write buf => (fun _ => .done) <$> (writerOf walkKeys walkCells width nameWidth key).write buf
  | .flush => (fun _ => .done) <$> (writerOf walkKeys walkCells width nameWidth key).flush
  | .close => (fun _ => .done) <$> (writerOf walkKeys walkCells width nameWidth key).close
  | .byteAt offset => .byte <$> (readerOf width key length).readByte offset
  | .bytesAt offset len => .bytes <$> (readerOf width key length).readBytes offset len
  | .read len => .bytes <$> (readerOf width key length).read len
  | .seek goal => .position <$> (readerOf width key length).seek goal

/-- steps one after another, each with its outcome -/
def log : List Step → Desk → List (Step × Except Error Answer)
  | [], _ => []
  | step :: steps, h =>
    let (o, h) := act walkKeys walkCells width nameWidth key length step h
    (step, o) :: log steps h

/-- no write goes past the last offset -/
def Fits : List Step → Desk → Prop
  | [], _ => True
  | step :: steps, h =>
    h.writer.pointer.toNat + step.size < UInt64.size ∧
      Fits steps (act walkKeys walkCells width nameWidth key length step h).2

instance decidableFits :
    ∀ steps h, Decidable (Fits walkKeys walkCells width nameWidth key length steps h)
  | [], _ => inferInstanceAs (Decidable True)
  | _ :: steps, _ => @instDecidableAnd _ _ _ (decidableFits steps _)

end

/-! ### What is told -/

/-- what a step may answer whose reader has its cursor at `q` over the snapshot `s`, and where the cursor is then -/
def Right (s : Bytes) (q : UInt64) : Step → Except Error Answer → UInt64 → Prop
  | .byteAt offset, a, q' =>
    q' = q ∧ ∃ x, a = .ok (.byte x) ∧ (offset.toNat < s.length → x = s.getD offset.toNat 0)
  | .bytesAt offset len, a, q' =>
    q' = q ∧ if len ≤ longestBuffer ∧ Layout.InRange offset.toNat len then
      ∃ bs, a = .ok (.bytes bs) ∧ bs.length = len ∧
        ∀ i < len, offset.toNat + i < s.length → bs.getD i 0 = s.getD (offset.toNat + i) 0
    else a = .error .tooLarge
  | .read len, a, q' =>
    if longestBuffer < (Reader.ahead s q len).length then a = .error .tooLarge ∧ q' = q else
      a = .ok (.bytes (Reader.ahead s q len)) ∧ q'.toNat = q.toNat + (Reader.ahead s q len).length
  | .seek goal, a, q' =>
    if 0 ≤ Reader.landing s q goal ∧ Reader.landing s q goal < UInt64.size then
      a = .ok (.position q') ∧ q'.toNat = Reader.landing s q goal
    else a = .error (.stream .seekRange) ∧ q' = q
  | .start, _, q' | .write _, _, q' | .flush, _, q' | .close, _, q' => q' = q

/-- all answers are right, and each goes on from where the cursor was left -/
def Told (s : Bytes) : UInt64 → List (Step × Except Error Answer) → Prop
  | _, [] => True
  | q, (step, a) :: log => ∃ q', Right s q step a q' ∧ Told s q' log

/-! ### What stays -/

/-- a writer's view of a desk whose reader stays as it is -/
def Beside (x : ReaderState) (h : Desk) (u : Layer CatalogState (Layer WriterState Unit)) : Prop :=
  Written h u ∧ h.reader = x

/-- a reader's view of a desk whose writer and catalog stay as they are -/
def Aside (x : CatalogState) (t : Table Column) (y : WriterState) (h : Desk) (v : Layer ReaderState Unit) : Prop :=
  Read h v ∧ h.catalog = x ∧ h.names = t ∧ h.writer = y

variable {walkKeys : Nat → List Key → List Key} {walkCells : Nat → List (Address Column) → List (Address Column)}
  {width nameWidth : Nat} {key : Key} {length : UInt64} {s : Bytes} {h : Desk} {atWork : Prop}

variable (width nameWidth key) in
theorem beside_laws (permKeys : ∀ n ks, (walkKeys n ks).Perm ks) (permCells : ∀ n as, (walkCells n as).Perm as)
    (x : ReaderState) : (writerOf walkKeys walkCells width nameWidth key).Laws (Beside x) Eq where
  catalog :=
    { inner := fun _ _ => Table.rows_serve (fun _ _ hs => hs.1.2.1)
        (fun _ _ _ hs => ⟨⟨hs.1.1, rfl, hs.1.2.2⟩, hs.2⟩) nameWidth never
      read := fun _ _ hs => ⟨_, hs, _, rfl, hs.1.1, rfl⟩
      write := fun x u _ hs => ⟨{ u with held := x }, ⟨⟨rfl, hs.1.2⟩, hs.2⟩, (), rfl, rfl⟩
      order := fun ks u _ hs => ⟨u, hs, _, rfl, permKeys _ ks, rfl⟩ }
  writer _ _ :=
    { inner := fun _ _ => Table.rows_serve (fun _ _ hs => hs.1.2.2.2)
        (fun _ _ _ hs => ⟨⟨hs.1.1, hs.1.2.1, hs.1.2.2.1, rfl⟩, hs.2⟩) width never
      read := fun _ _ hs => ⟨_, hs, _, rfl, hs.1.2.2.1, rfl⟩
      write := fun y v _ hs => ⟨{ v with held := y }, ⟨⟨hs.1.1, hs.1.2.1, rfl, hs.1.2.2.2⟩, hs.2⟩, (), rfl, rfl⟩ }
  order as u _ hs := ⟨u, hs, _, rfl, permCells _ as, rfl⟩

variable (width key length) in
theorem aside_laws (x : CatalogState) (t : Table Column) (y : WriterState) :
    (readerOf width key length).Laws (Aside x t y) := by
  have layered : Layered (readerOf width key length).rows (readerOf width key length).state (Aside x t y) Eq never :=
    { inner := fun _ _ => Table.rows_serve (fun _ _ hs => hs.1.2) (fun _ _ _ hs => ⟨⟨hs.1.1, rfl⟩, hs.2⟩) width never
      read := fun _ _ hs => ⟨_, hs, _, rfl, hs.1.1, rfl⟩
      write := fun z v _ hs => ⟨{ v with held := z }, ⟨⟨rfl, hs.1.2⟩, hs.2⟩, (), rfl, rfl⟩ }
  exact Reader.laws_of_layered layered

/-- what a desk shows of its writer and its catalog -/
def written (h : Desk) : Layer CatalogState (Layer WriterState Unit) := ⟨h.catalog, h.names, h.writer, h.data, ()⟩

variable (walkKeys walkCells width nameWidth key s) in
/-- an open writer works at the end of the snapshot `s` or beyond; the row has the bytes of `s`, and will have them once
the writer is flushed -/
structure Works (u : Layer CatalogState (Layer WriterState Unit)) : Prop where
  stored : Layout.read width u.rest.beneath key 0 s.length = s
  opened : ∃ n p d, s.length ≤ n.toNat ∧ Layout.read width p key 0 s.length = s ∧
    (writerOf walkKeys walkCells width nameWidth key).Opened (· = key) (fun _ => none) () n p d u

variable (walkKeys walkCells width nameWidth key s) in
/-- the row and the column that the reader keeps have the bytes of the snapshot `s`, at least as many are recorded, and so
it is with a writer at work -/
structure Stands (atWork : Prop) (h : Desk) : Prop where
  stored : Layout.read width h.data key 0 s.length = s
  kept : ∀ c cell, h.reader.current = some (c, cell) → Layout.Recalls width s c cell
  recorded : ∃ n : UInt64, s.length ≤ n.toNat ∧ Catalog.Coherent (· = key) (fun _ => some n) [] h.catalog h.names
  writer : atWork → Works walkKeys walkCells width nameWidth key s h.written

/-- what a writer that works has recorded -/
theorem Works.recorded {u : Layer CatalogState (Layer WriterState Unit)}
    (works : Works walkKeys walkCells width nameWidth key s u) :
    ∃ n : UInt64, s.length ≤ n.toNat ∧ Catalog.Coherent (· = key) (fun _ => some n) [] u.held u.beneath := by
  obtain ⟨_, n, p, d, enough, _, opened⟩ := works
  refine ⟨n, enough, opened.lengths.congr_lengths fun k here => ?_⟩
  subst here
  exact Function.update_self ..

/-! ### Steps of writers -/

section Writers

variable (permKeys : ∀ n ks, (walkKeys n ks).Perm ks) (permCells : ∀ n as, (walkCells n as).Perm as)

include permKeys permCells

/-- a new writer works at the recorded length -/
theorem reopen_works (hw : 0 < width) (stands : Stands walkKeys walkCells width nameWidth key s atWork h) :
    Ends (Beside h.reader) (writerOf walkKeys walkCells width nameWidth key).reopen h.written fun _ u =>
      Works walkKeys walkCells width nameWidth key s u := by
  have laws := beside_laws width nameWidth key permKeys permCells h.reader
  obtain ⟨n, enough, recorded⟩ := stands.recorded
  refine (Writer.start_records laws.catalog (writerOf walkKeys walkCells width nameWidth key).rows hw (S := (· = key)) rfl
    ⟨recorded, rfl⟩).ends ?_
  rintro _ ⟨x, names, _⟩ ⟨rfl, ⟨lengths, rfl⟩, _⟩
  refine Ends.mono (Writer.Laws.rest ((laws.writer _ _).write _ _)) ?_
  intro _ _ hu
  obtain ⟨_, _, _, rfl, rfl⟩ := hu
  refine ⟨stands.stored, n, h.data, {}, enough, stands.stored, rfl, rfl, ?_, .new _, rfl⟩
  refine lengths.congr_lengths fun k here => ?_
  subst here
  exact (Function.update_self ..).trans (Function.update_self k (some n) fun _ => none).symm

/-- a write goes past the snapshot, whether it is taken or not, and stays in the writer's cache -/
theorem write_works (hw : 0 < width) {buf : Bytes} (fits : h.writer.pointer.toNat + buf.length < UInt64.size)
    (works : Works walkKeys walkCells width nameWidth key s h.written) :
    Ends (Beside h.reader) ((writerOf walkKeys walkCells width nameWidth key).write buf) h.written fun _ u =>
      Works walkKeys walkCells width nameWidth key s u := by
  have laws := beside_laws width nameWidth key permKeys permCells h.reader
  obtain ⟨stored, n, p, d, enough, whole, opened⟩ := works
  have here : n = h.writer.pointer := opened.pointer.symm
  rw [← here] at fits
  refine Ends.mono (laws.frail.write hw fits opened) fun o u hu => ?_
  rcases hu with ⟨_, _, opened', same, _⟩ | ⟨_, _, ⟨q, opened', kept⟩, same, _⟩
  · have size : (UInt64.ofNat buf.length).toNat = buf.length := UInt64.toNat_ofNat_of_lt (by omega)
    have stop : (n + UInt64.ofNat buf.length).toNat = n.toNat + buf.length := by
      rw [UInt64.toNat_add, size]
      exact Nat.mod_eq_of_lt fits
    refine ⟨by rw [same]; exact stored, _, _, _, by omega, ?_, opened'⟩
    exact (Layout.read_writeSpans_below hw enough buf (Nat.le_of_lt fits) p).trans whole
  · refine ⟨by rw [same]; exact stored, n, q, d, enough, ?_, opened'⟩
    exact (Layout.read_below hw enough kept).trans whole

/-- what a flush stores has the snapshot -/
theorem flush_works (works : Works walkKeys walkCells width nameWidth key s h.written) :
    Ends (Beside h.reader) (writerOf walkKeys walkCells width nameWidth key).flush h.written fun _ u =>
      Works walkKeys walkCells width nameWidth key s u := by
  have laws := beside_laws width nameWidth key permKeys permCells h.reader
  obtain ⟨_, n, p, d, enough, whole, opened⟩ := works
  refine Ends.mono (laws.flush opened) fun o u hu => ?_
  obtain ⟨_, _, opened', flushed, _⟩ := hu
  exact ⟨by rw [opened'.beneath flushed, whole], n, p, d, enough, whole, opened'⟩

end Writers

/-- a step of a writer that works leaves the reader as it is -/
theorem Stands.of_writer {α : Type} {x : Run Desk α} {P : Prop}
    (stands : Stands walkKeys walkCells width nameWidth key s atWork h)
    (ends : Ends (Beside h.reader) x h.written fun _ u => Works walkKeys walkCells width nameWidth key s u) :
    (x h).2.reader.position = h.reader.position ∧ Stands walkKeys walkCells width nameWidth key s P (x h).2 := by
  obtain ⟨u, ⟨⟨catalog, names, writer, data⟩, reader⟩, works⟩ := ends h ⟨⟨rfl, rfl, rfl, rfl⟩, rfl⟩
  have view : u = (x h).2.written := by
    rw [written, catalog, names, writer, data]
  rw [view] at works
  refine ⟨congrArg _ reader, works.stored, ?_, works.recorded, fun _ => works⟩
  rw [reader]
  exact stands.kept

/-! ### Steps of readers -/

/-- a step of the reader changes nothing but the reader -/
theorem Stands.of_reader {α : Type} {x : Run Desk α} {Q : Except Error α → UInt64 → Prop}
    (stands : Stands walkKeys walkCells width nameWidth key s atWork h)
    (ends : Ends (Aside h.catalog h.names h.writer) x ⟨h.reader, h.data, ()⟩ fun o v =>
      (readerOf width key length).Recalls s v ∧ v.beneath = h.data ∧ Q o v.held.position) :
    Q (x h).1 (x h).2.reader.position ∧ Stands walkKeys walkCells width nameWidth key s atWork (x h).2 := by
  obtain ⟨v, ⟨⟨reader, data⟩, catalog, names, writer⟩, recalls, same, told⟩ := ends h ⟨⟨rfl, rfl⟩, rfl, rfl, rfl⟩
  rw [same] at data
  have view : (x h).2.written = h.written := by
    rw [written, catalog, names, writer, data, written]
  refine ⟨by rw [reader]; exact told, by rw [data]; exact stands.stored, ?_, ?_, fun work => view ▸ stands.writer work⟩
  · rw [reader]
    exact recalls.kept
  · rw [catalog, names]
    exact stands.recorded

section Readers

variable (hw : 0 < width) (stop : length.toNat = s.length)
  (stands : Stands walkKeys walkCells width nameWidth key s atWork h)

include hw stands

theorem Stands.recalls : (readerOf width key length).Recalls s (⟨h.reader, h.data, ()⟩ : Layer ReaderState Unit) :=
  ⟨stands.kept, Layout.recalls_of_whole hw stands.stored⟩

theorem byteAt_right (offset : UInt64) :
    Ends (Aside h.catalog h.names h.writer) (act walkKeys walkCells width nameWidth key length (.byteAt offset))
      ⟨h.reader, h.data, ()⟩ fun o v => (readerOf width key length).Recalls s v ∧ v.beneath = h.data ∧
        Right s h.reader.position (.byteAt offset) o v.held.position := by
  have laws := aside_laws width key length h.catalog h.names h.writer
  refine Ends.map (Ends.mono (Reader.readByte_recalls laws hw (stands.recalls hw) offset) fun o v hv => ?_)
  obtain ⟨x, rfl, told, looked⟩ := hv
  exact ⟨looked.recalls, looked.beneath, looked.position, x, rfl, told⟩

include stop

theorem bytesAt_right (offset : UInt64) (len : Nat) :
    Ends (Aside h.catalog h.names h.writer) (act walkKeys walkCells width nameWidth key length (.bytesAt offset len))
      ⟨h.reader, h.data, ()⟩ fun o v => (readerOf width key length).Recalls s v ∧ v.beneath = h.data ∧
        Right s h.reader.position (.bytesAt offset len) o v.held.position := by
  have laws := aside_laws width key length h.catalog h.names h.writer
  have small : s.length < UInt64.size := stop ▸ length.toNat_lt_size
  refine Ends.map (Ends.mono (Reader.readBytes_recalls laws hw (Nat.le_of_lt small) (stands.recalls hw) offset len)
    fun o v hv => ?_)
  obtain ⟨looked, told⟩ := hv
  refine ⟨looked.recalls, looked.beneath, looked.position, ?_⟩
  obtain ⟨fits, bs, rfl, right⟩ | ⟨unfit, rfl⟩ := told
  · rw [if_pos fits]
    exact ⟨bs, rfl, right⟩
  · rw [if_neg unfit]
    rfl

theorem read_right (len : Nat) :
    Ends (Aside h.catalog h.names h.writer) (act walkKeys walkCells width nameWidth key length (.read len))
      ⟨h.reader, h.data, ()⟩ fun o v => (readerOf width key length).Recalls s v ∧ v.beneath = h.data ∧
        Right s h.reader.position (.read len) o v.held.position := by
  have laws := aside_laws width key length h.catalog h.names h.writer
  refine Ends.map (Ends.mono (Reader.read_recalls laws hw stop (stands.recalls hw) len) fun o v hv => ?_)
  obtain ⟨recalls, same, _, told⟩ := hv
  refine ⟨recalls, same, ?_⟩
  rw [Right]
  split_ifs with long
  · rw [if_pos long] at told
    exact ⟨by rw [told.1]; rfl, told.2⟩
  · rw [if_neg long] at told
    exact ⟨by rw [told.1]; rfl, told.2⟩

theorem seek_right (goal : SeekFrom) :
    Ends (Aside h.catalog h.names h.writer) (act walkKeys walkCells width nameWidth key length (.seek goal))
      ⟨h.reader, h.data, ()⟩ fun o v => (readerOf width key length).Recalls s v ∧ v.beneath = h.data ∧
        Right s h.reader.position (.seek goal) o v.held.position := by
  have laws := aside_laws width key length h.catalog h.names h.writer
  refine Ends.map (Ends.mono (Reader.seek_recalls laws stop (stands.recalls hw) goal) fun o v hv => ?_)
  obtain ⟨recalls, same, _, told⟩ := hv
  refine ⟨recalls, same, ?_⟩
  rw [Right]
  split_ifs with inside
  · rw [if_pos inside] at told
    exact ⟨by rw [told.1]; rfl, told.2⟩
  · rw [if_neg inside] at told
    exact ⟨by rw [told.1]; rfl, told.2⟩

end Readers

/-! ### Runs -/

section Runs

variable (permKeys : ∀ n ks, (walkKeys n ks).Perm ks) (permCells : ∀ n as, (walkCells n as).Perm as) (hw : 0 < width)
  (stop : length.toNat = s.length)

include permKeys permCells hw stop

/-- **One step**: what is told is right, and the snapshot stays. -/
theorem snapshot_step {step : Step} (fits : h.writer.pointer.toNat + step.size < UInt64.size)
    (ready : step.writes = true → atWork) (stands : Stands walkKeys walkCells width nameWidth key s atWork h) :
    Right s h.reader.position step (act walkKeys walkCells width nameWidth key length step h).1
        (act walkKeys walkCells width nameWidth key length step h).2.reader.position ∧
      Stands walkKeys walkCells width nameWidth key s (atWork ∨ step = .start)
        (act walkKeys walkCells width nameWidth key length step h).2 := by
  cases step with
  | start => exact stands.of_writer (reopen_works permKeys permCells hw stands).map_answer
  | write buf => exact stands.of_writer (write_works permKeys permCells hw fits (stands.writer (ready rfl))).map_answer
  | flush => exact stands.of_writer (flush_works permKeys permCells (stands.writer (ready rfl))).map_answer
  | close => exact stands.of_writer (flush_works permKeys permCells (stands.writer (ready rfl))).map_answer
  | byteAt offset =>
    rw [show (atWork ∨ Step.byteAt offset = .start) = atWork by simp]
    exact stands.of_reader (byteAt_right hw stands offset)
  | bytesAt offset len =>
    rw [show (atWork ∨ Step.bytesAt offset len = .start) = atWork by simp]
    exact stands.of_reader (bytesAt_right hw stop stands offset len)
  | read len =>
    rw [show (atWork ∨ Step.read len = .start) = atWork by simp]
    exact stands.of_reader (read_right hw stop stands len)
  | seek goal =>
    rw [show (atWork ∨ Step.seek goal = .start) = atWork by simp]
    exact stands.of_reader (seek_right hw stop stands goal)

/-- **A run**: all that is told is right. -/
theorem snapshot_run (steps : List Step) (fits : Fits walkKeys walkCells width nameWidth key length steps h)
    (ready : atWork ∨ opensFirst steps = true) (stands : Stands walkKeys walkCells width nameWidth key s atWork h) :
    Told s h.reader.position (log walkKeys walkCells width nameWidth key length steps h) := by
  induction steps generalizing h atWork with
  | nil => trivial
  | cons step steps ih =>
    obtain ⟨first, later⟩ := fits
    have now : step.writes = true → atWork := fun writes => by
      refine ready.resolve_right fun opens => ?_
      cases step <;> simp_all [opensFirst, Step.writes]
    have next : (atWork ∨ step = .start) ∨ opensFirst steps = true := by
      rcases ready with work | opens
      · exact .inl (.inl work)
      · cases step <;> simp_all [opensFirst, Step.writes]
    obtain ⟨right, stands'⟩ := snapshot_step permKeys permCells hw stop first now stands
    exact ⟨_, right, ih later next stands'⟩

end Runs

/-- **Readers are snapshots under appends.** A file has the bytes `s` and perhaps more, and a reader is opened at the length
of `s`. Whatever writers that are opened one after another write, flush and close meanwhile, every byte that the reader
tells at an offset below this length is that of `s`, and its cursor reads `s` and stops at its end. -/
theorem readers_are_snapshots (permKeys : ∀ n ks, (walkKeys n ks).Perm ks)
    (permCells : ∀ n as, (walkCells n as).Perm as) (hw : 0 < width) (s : Bytes) (h : Desk)
    (stored : Layout.read width h.data key 0 s.length = s) (n : UInt64) (enough : s.length ≤ n.toNat)
    (recorded : Catalog.Coherent (· = key) (fun _ => some n) [] h.catalog h.names) (new : h.reader = {})
    (stop : length.toNat = s.length) (steps : List Step) (opens : opensFirst steps = true)
    (fits : Fits walkKeys walkCells width nameWidth key length steps h) :
    Told s 0 (log walkKeys walkCells width nameWidth key length steps h) := by
  have stands : Stands walkKeys walkCells width nameWidth key s False h := by
    refine ⟨stored, fun c cell kept => ?_, ⟨n, enough, recorded⟩, False.elim⟩
    rw [new] at kept
    cases kept
  have told := snapshot_run permKeys permCells hw stop steps fits (.inr opens) stands
  rw [new] at told
  exact told

/-- the column kept is older than the row, and then newer than the length -/
theorem readers_are_snapshots_of_five :
    let h : Desk :=
      { data := (Table.empty.put "f" 0 [1, 2, 3, 4]).put "f" 1 [5],
        names := Table.empty.put (Catalog.lengthRow "f") 0 (Bytes.ofUInt64 5) }
    let steps : List Step := [.byteAt 4, .start, .write [6, 7, 8, 9], .flush, .bytesAt 3 2, .read 9, .close, .start,
      .write [10], .byteAt 0, .byteAt 4, .close, .seek (.stop (-1)), .read 4]
    let told := log (fun _ => id) (fun _ => List.reverse) 4 8 "f" 5 steps h
    Told [1, 2, 3, 4, 5] 0 told ∧ told.map Prod.snd = [.ok (.byte 5), .ok .done, .ok .done, .ok .done,
      .ok (.bytes [4, 5]), .ok (.bytes [1, 2, 3, 4, 5]), .ok .done, .ok .done, .ok .done, .ok (.byte 1), .ok (.byte 5),
      .ok .done, .ok (.position 4), .ok (.bytes [5])] := by
  intro h steps told
  have recorded : Catalog.Coherent (· = "f") (fun _ => some 5) [] h.catalog h.names :=
    .new ((Table.get_put ..).trans (if_pos ⟨rfl, rfl⟩))
  refine ⟨?_, by decide +kernel⟩
  exact readers_are_snapshots (fun _ _ => .refl _) (fun _ => List.reverse_perm) (by decide) [1, 2, 3, 4, 5] h
    (by decide +kernel) 5 (by decide) recorded rfl (by decide) steps (by decide) (by decide +kernel)

end Desk

end RowFiles
