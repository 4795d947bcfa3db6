/-
One reader over a row that does not change, while gets may be refused.

A lectern has a table, of which any cells may be absent, too short or too long, and one reader at a row of it. The reader
is asked for bytes at offsets and at its cursor, in any order, and goes on after calls that failed.

- `act_attends`, `after_attends`: the column that the reader keeps is the row's, whatever it was asked for.
- `stretches_match_bytes`: so a stretch has the bytes that are told one at a time, which are those of the cells.
- `act_follows`, `reader_is_cursor`: over a file the reader goes as a cursor over its bytes in memory, and a call that fails
  does not count.
-/
import RowFiles.Proofs.Files.FrailReaders
import RowFiles.Proofs.Files.Snapshots

namespace RowFiles

open Run

/-- a stretch of a row in which a byte string is stored, as far as the string goes -/
theorem Layout.read_ahead {w : Nat} (hw : 0 < w) {t : Table Column} {k : Key} {s : Bytes}
    (stored : ∀ i < s.length, Layout.byte w t k i = s.getD i 0) (pos len : Nat) :
    Layout.read w t k pos (min len (s.length - pos)) = (s.drop pos).take len := by
  apply List.ext_getElem
  · simp [hw]
  intro i hi hb
  have there : pos + i < s.length := by
    rw [Layout.length_read hw] at hi
    omega
  simp only [Layout.read_eq_bytes hw, List.getElem_map, List.getElem_range, List.getElem_take, List.getElem_drop]
  rw [stored _ there, List.getD_eq_getElem?_getD, List.getElem?_eq_getElem there, Option.getD_some]

/-! ## A cursor over bytes in memory -/

structure Cursor where
  bytes : Bytes
  position : Nat := 0
deriving DecidableEq, Repr

namespace Cursor

/-- at most `len` bytes from the cursor on, which moves past them -/
def read (c : Cursor) (len : Nat) : Bytes × Cursor :=
  let bs := (c.bytes.drop c.position).take len
  (bs, { c with position := c.position + bs.length })

/-- where a seek leads -/
def landing (c : Cursor) : SeekFrom → Int
  | .start p => p.toNat
  | .current d => c.position + d
  | .stop d => c.bytes.length + d

/-- the cursor moves where a seek leads, unless that is no 64-bit position -/
def seek (c : Cursor) (goal : SeekFrom) : Except Error UInt64 × Cursor :=
  if 0 ≤ c.landing goal ∧ c.landing goal < UInt64.size then
    (.ok (UInt64.ofNat (c.landing goal).toNat), { c with position := (c.landing goal).toNat })
  else (.error (.stream .seekRange), c)

theorem length_read (c : Cursor) (len : Nat) : (c.read len).1.length = min len (c.bytes.length - c.position) := by
  simp [read]

theorem landing_eq {c : Cursor} {p : UInt64} (there : p.toNat = c.position) (goal : SeekFrom) :
    c.landing goal = Reader.landing c.bytes p goal := by
  cases goal with
  | start | stop => rfl
  | current d => rw [landing, Reader.landing, there]

end Cursor

/-! ## A lectern -/

structure Lectern where
  data : Table Column
  reader : ReaderState := {}
  /-- how many gets the table has been asked for -/
  asked : Nat := 0

namespace Lectern

open Reader (Step Answer)

/-- lets a call through, or refuses it -/
def ask (refuse : Nat → Option Error) (_ : Call) : Run Lectern Unit := fun h =>
  (match refuse h.asked with | some e => .error e | none => .ok (), { h with asked := h.asked + 1 })

/-- what is seen of a lectern -/
def view (h : Lectern) : Layer ReaderState Unit := ⟨h.reader, h.data, ()⟩

/-- how wide the table is, which row is read up to which length, and which gets are refused -/
structure Ways where
  width : Nat
  key : Key
  length : UInt64
  /-- the reason for which the `n`th get is refused, if it is -/
  refuse : Nat → Option Error

namespace Ways

variable (w : Ways)

/-- the same ways while nothing is refused -/
def calm : Ways := { w with refuse := fun _ => none }

def reader : Reader (Run Lectern) where
  rows := (Table.rows (Run.part (fun h => h.data) fun t h => { h with data := t }) w.width).guarded (ask w.refuse)
  key := w.key
  length := w.length
  state := Run.part (fun h => h.reader) fun x h => { h with reader := x }

/-- the lectern after some steps, whatever each of them answers -/
def after (steps : List Step) (h : Lectern) : Lectern := steps.foldl (fun h step => (w.reader.act step h).2) h

/-- one of the gets from `start` on and before `stop` is refused for the reason `e` -/
def Refused (start stop : Nat) (e : Error) : Prop := ∃ n, start ≤ n ∧ n < stop ∧ w.refuse n = some e

/-- what a lectern shows since `start` gets had been asked for, and whether one of those since then has been refused -/
def Shows (start : Nat) (q : Option Error) (h : Lectern) (v : Layer ReaderState Unit) : Prop :=
  h.view = v ∧ start ≤ h.asked ∧
    match q with
    | none => ∀ e, ¬ w.Refused start h.asked e
    | some e => w.Refused start h.asked e

variable {w} {h : Lectern} {v : Layer ReaderState Unit} {α : Type}

theorem shows_now (h : Lectern) : w.Shows h.asked none h h.view :=
  ⟨rfl, Nat.le_refl _, fun _ ⟨_, late, early, _⟩ => absurd early (Nat.not_lt.2 late)⟩

/-- a get answers from the table, or is refused -/
theorem reader_laws (w : Ways) (start : Nat) : w.reader.FrailLaws (w.Shows start) where
  cell c v := by
    intro h hs
    obtain ⟨rfl, since, unrefused⟩ := hs
    have later : start ≤ h.asked + 1 := Nat.le_succ_of_le since
    cases refused : w.refuse h.asked with
    | some e =>
      have stopped : ask w.refuse (.get w.key c) h = (.error e, { h with asked := h.asked + 1 }) := by
        simp only [ask, refused]
      refine .inr ⟨e, some e, h.view, ?_, ?_, rfl, rfl⟩
      · exact congrArg Prod.fst (bind_of_error stopped)
      · rw [show (w.reader.rows.get w.reader.key c h).2 = { h with asked := h.asked + 1 } from
          congrArg Prod.snd (bind_of_error stopped)]
        exact ⟨rfl, later, h.asked, since, Nat.lt_succ_self _, refused⟩
    | none =>
      have passed : ask w.refuse (.get w.key c) h = (.ok (), { h with asked := h.asked + 1 }) := by
        simp only [ask, refused]
      have got : w.reader.rows.get w.reader.key c h = (.ok (h.data.get w.key c), { h with asked := h.asked + 1 }) :=
        bind_of_ok passed
      refine .inl ⟨h.data.get w.key c, h.view, by rw [got], ?_, rfl, rfl⟩
      rw [got]
      refine ⟨rfl, later, fun e ⟨n, late, early, found⟩ => ?_⟩
      rcases Nat.lt_succ_iff_lt_or_eq.1 early with before | rfl
      · exact unrefused e ⟨n, late, before, found⟩
      · rw [refused] at found
        cases found
  read v h hs := ⟨v, hs, _, rfl, congrArg Layer.held hs.1, rfl⟩
  write x v h hs := by
    obtain ⟨rfl, same⟩ := hs
    exact ⟨_, ⟨rfl, same⟩, (), rfl, rfl⟩

/-! ## The row does not change -/

variable {t : Table Column}

variable (w t) in
/-- the table is `t`, and the column that is kept is one of its row -/
structure Attends (v : Layer ReaderState Unit) : Prop where
  data : v.beneath = t
  fresh : Reader.Fresh w.key v

theorem Attends.start (w : Ways) (t : Table Column) : w.Attends t (view { data := t }) := ⟨rfl, nofun⟩

theorem Attends.left {u : Layer ReaderState Unit} (attends : w.Attends t v) (left : w.reader.Left v u) : w.Attends t u :=
  ⟨left.beneath.trans attends.data, left.fresh⟩

/-- how a run on the reader ends: as it should, or with the reason for which a get was refused -/
theorem ends_of_tells {x : Run Lectern α} {o : Except Error α} {p : UInt64} (attends : w.Attends t h.view)
    (tells : w.reader.Tells (w.Shows h.asked) x h.view o p) :
    w.Attends t (x h).2.view ∧ h.asked ≤ (x h).2.asked ∧
      (((x h).1 = o ∧ (x h).2.reader.position = if o.isOk then p else h.reader.position) ∨
        ∃ e, ((x h).1 = .error e ∧ w.Refused h.asked (x h).2.asked e) ∧ (x h).2.reader.position = h.reader.position) := by
  rcases tells h (shows_now h) with ⟨a, u, ended, ⟨rfl, later, _⟩, rfl, left, moved⟩ |
    ⟨e, q, u, failed, ⟨rfl, later, refused⟩, rfl | ⟨rfl, rfl⟩, stays⟩
  · exact ⟨attends.left left, later, .inl ⟨ended, moved⟩⟩
  · exact ⟨attends.left stays.toLeft, later, .inr ⟨e, ⟨failed, refused⟩, stays.position⟩⟩
  · exact ⟨attends.left stays.toLeft, later, .inl ⟨failed, stays.position⟩⟩

/-- while nothing is refused a run ends as it should -/
theorem told_of_tells {x : Run Lectern α} {o : Except Error α} {p : UInt64} (attends : w.Attends t h.view)
    (tells : w.reader.Tells (w.Shows h.asked) x h.view o p) (quiet : ∀ n ≥ h.asked, w.refuse n = none) : (x h).1 = o := by
  obtain ⟨_, _, ⟨told, _⟩ | ⟨e, ⟨_, n, since, _, refused⟩, _⟩⟩ := ends_of_tells attends tells
  · exact told
  · rw [quiet n since] at refused
    cases refused

theorem act_tells (attends : w.Attends t h.view) (step : Step) :
    w.reader.Tells (w.Shows h.asked) (w.reader.act step) h.view (w.reader.answer t h.reader.position step)
      (w.reader.moved h.reader.position step) := by
  rw [← attends.data]
  exact (w.reader_laws h.asked).act_tells attends.fresh step

/-- **One step** leaves the row alone, and keeps a column of it. -/
theorem act_attends (attends : w.Attends t h.view) (step : Step) : w.Attends t (w.reader.act step h).2.view :=
  (ends_of_tells attends (act_tells attends step)).1

/-- **A run** does. -/
theorem after_attends (attends : w.Attends t h.view) (steps : List Step) : w.Attends t (w.after steps h).view := by
  induction steps generalizing h with
  | nil => exact attends
  | cons step steps ih => exact ih (act_attends attends step)

/-- **A step that is taken again** after a failure answers what it would have answered had nothing been refused. -/
theorem act_again (attends : w.Attends t h.view) {step : Step} {e : Error} (failed : (w.reader.act step h).1 = .error e) :
    (w.calm.reader.act step (w.reader.act step h).2).1 = (w.calm.reader.act step h).1 := by
  have calm {g : Lectern} (attends : w.Attends t g.view) :
      (w.calm.reader.act step g).1 = w.reader.answer t g.reader.position step := by
    have attends : w.calm.Attends t g.view := ⟨attends.data, attends.fresh⟩
    exact told_of_tells attends (act_tells attends step) fun _ _ => rfl
  have still : (w.reader.act step h).2.reader.position = h.reader.position := by
    obtain ⟨_, _, ⟨told, moved⟩ | ⟨_, _, still⟩⟩ := ends_of_tells attends (act_tells attends step)
    · rw [moved, ← told, failed]
      rfl
    · exact still
  rw [calm attends, calm (act_attends attends step), still]

/-! ## Stretches -/

section

variable (positive : 0 < w.width) (attends : w.Attends t h.view) (quiet : ∀ n ≥ h.asked, w.refuse n = none)
  (offset : UInt64)

include positive attends quiet

/-- a byte that is asked for while nothing is refused -/
theorem byte_told : (w.reader.readByte offset h).1 = .ok (Layout.byte w.width t w.key offset.toNat) := by
  rw [told_of_tells attends ((w.reader_laws h.asked).readByte_tells attends.fresh offset) quiet,
    Reader.byte_of_pos _ positive, attends.data]
  rfl

/-- a stretch that is asked for while nothing is refused -/
theorem stretch_told {len : Nat} (short : len ≤ longestBuffer) (within : Layout.InRange offset.toNat len) :
    (w.reader.readBytes offset len h).1 = .ok (Layout.read w.width t w.key offset.toNat len) := by
  rw [told_of_tells attends ((w.reader_laws h.asked).readBytes_tells attends.fresh offset len) quiet,
    Reader.stretch_of_pos _ positive short within, attends.data]
  rfl

end

/-- **Stretches have the bytes that are told one at a time.** Take any row of a table of any positive width, and one reader
that has been asked for whatever, while gets were refused or not. When gets are no longer refused, a stretch of up to 2^63 - 1
bytes is told, and it is as long as it should be. Its byte at `i` is told by itself as the same, before the stretch is read
and after, and it is the one that lies in the cells: byte `(offset + i) % width` of column `(offset + i) / width`, or 0 if
there is none. -/
theorem stretches_match_bytes (w : Ways) (positive : 0 < w.width) (t : Table Column) (steps : List Step)
    (quiet : ∀ n ≥ (w.after steps { data := t }).asked, w.refuse n = none) (offset : UInt64) (len : Nat)
    (fits : offset.toNat + len < UInt64.size) :
    let h := w.after steps { data := t }
    if longestBuffer < len then w.reader.readBytes offset len h = (.error .tooLarge, h)
    else ∃ bs h', w.reader.readBytes offset len h = (.ok bs, h') ∧ bs.length = len ∧ ∀ i < len,
      bs[i]? = some (Layout.byte w.width t w.key (offset.toNat + i)) ∧
      (w.reader.readByte (offset + UInt64.ofNat i) h).1 = .ok (Layout.byte w.width t w.key (offset.toNat + i)) ∧
      (w.reader.readByte (offset + UInt64.ofNat i) h').1 = .ok (Layout.byte w.width t w.key (offset.toNat + i)) := by
  intro h
  have attends : w.Attends t h.view := after_attends (.start w t) steps
  split_ifs with long
  · rw [w.reader.readBytes_long positive offset long]
    rfl
  have told := stretch_told positive attends quiet offset (Nat.not_lt.1 long) (.inr fits)
  obtain ⟨attends', later, _⟩ :=
    ends_of_tells attends (attends.data ▸ (w.reader_laws h.asked).readBytes_tells attends.fresh offset len)
  refine ⟨_, _, Prod.ext told rfl, Layout.length_read positive .., fun i hi => ?_⟩
  have place : (offset + UInt64.ofNat i).toNat = offset.toNat + i := by
    have small : (UInt64.ofNat i).toNat = i := UInt64.toNat_ofNat_of_lt (by omega)
    rw [UInt64.toNat_add, small, Nat.mod_eq_of_lt (by show _ < UInt64.size; omega)]
  rw [← place]
  refine ⟨?_, byte_told positive attends quiet _, byte_told positive attends' (fun n hn => ?_) _⟩
  · rw [Layout.read_eq_bytes positive, List.getElem?_map, List.getElem?_range hi, place]
    rfl
  · exact quiet n (Nat.le_trans later hn)

/-- cells that are too short, too long or absent, and a read that has been refused -/
theorem stretches_match_bytes_ragged :
    let w : Ways := ⟨4, "f", 10, fun n => if n = 1 then some (.backend "down") else none⟩
    let t := ((Table.empty.put "f" 0 [1, 2]).put "f" 1 [5, 6, 7, 8, 9, 9]).put "f" 3 [13]
    let h := w.after [.byteAt 5, .read 3, .read 3, .seek (.stop 2), .bytesAt 0 16] { data := t }
    h.asked = 6 ∧ h.reader = ⟨12, some (3, [13])⟩ ∧ ∃ bs h', w.reader.readBytes 1 12 h = (.ok bs, h') ∧
      bs = [2, 0, 0, 5, 6, 7, 8, 0, 0, 0, 0, 13] ∧
      ∀ i < 12, (w.reader.readByte (1 + UInt64.ofNat i) h).1 = .ok (bs.getD i 0) := by
  intro w t h
  have asked : h.asked = 6 := by decide +kernel
  have quiet (n : Nat) (late : n ≥ h.asked) : w.refuse n = none := if_neg (by omega)
  have matched := stretches_match_bytes w (by decide) t _ quiet 1 12 (by decide)
  dsimp only at matched
  rw [if_neg (by decide)] at matched
  obtain ⟨bs, h', told, length, each⟩ := matched
  refine ⟨asked, by decide +kernel, bs, h', told, ?_, fun i hi => ?_⟩
  · have here : (w.reader.readBytes 1 12 h).1 = .ok [2, 0, 0, 5, 6, 7, 8, 0, 0, 0, 0, 13] := by decide +kernel
    rw [told] at here
    exact Except.ok.inj here
  · obtain ⟨there, alone, _⟩ := each i hi
    rw [List.getD_eq_getElem?_getD, there]
    exact alone

/-- a stretch that no buffer holds is not told, though the file is as long -/
theorem stretches_match_bytes_too_long :
    let w : Ways := ⟨UInt64.size / 32, "f", UInt64.ofNat (UInt64.size / 2), fun _ => none⟩
    (0 : UInt64).toNat + UInt64.size / 2 < UInt64.size ∧
      ¬ ∃ bs h', w.reader.readBytes 0 (UInt64.size / 2) { data := .empty } = (.ok bs, h') := by
  intro w
  refine ⟨by decide, fun told => ?_⟩
  obtain ⟨bs, h', told⟩ := told
  rw [w.reader.readBytes_long (by decide) 0 (by decide)] at told
  cases told

/-! ## Over a file -/

variable (w t) in
/-- the row has the bytes of a file, whatever it has after them -/
structure Stored (s : Bytes) : Prop where
  length : w.length.toNat = s.length
  bytes : ∀ i < s.length, Layout.byte w.width t w.key i = s.getD i 0
  /-- a table without width has no bytes -/
  wide : s ≠ [] → 0 < w.width

variable (w) in
/-- a step goes as on the cursor `c`, which is then `c'`. A read may be refused instead, and then the cursor stays where it
is; bytes at an offset leave it alone in any case. -/
def Goes (c : Cursor) (step : Step) (h : Lectern) (c' : Cursor) : Prop :=
  let (o, h') := w.reader.act step h
  match step with
  | .read len =>
    o = .ok (.bytes (c.read len).1) ∧ c' = (c.read len).2 ∨
      (∃ e, o = .error e ∧ w.Refused h.asked h'.asked e) ∧ c' = c
  | .seek goal => o = .position <$> (c.seek goal).1 ∧ c' = (c.seek goal).2
  | .byteAt _ | .bytesAt .. => c' = c

variable (w) in
/-- steps one after another go as on the cursor, and the reader's position is the cursor's after each of them -/
def Follows : Cursor → List Step → Lectern → Prop
  | _, [], _ => True
  | c, step :: steps, h =>
    let h' := (w.reader.act step h).2
    ∃ c', w.Goes c step h c' ∧ h'.reader.position.toNat = c'.position ∧ Follows c' steps h'

section

variable {c : Cursor} {position : UInt64} (stored : w.Stored t c.bytes) (there : position.toNat = c.position)

include stored there

/-- what is told at the cursor, and where that leads -/
theorem next_stored {len : Nat} (short : len ≤ longestBuffer) :
    w.reader.next t position len = .ok (c.read len).1 ∧
      (w.reader.moved position (.read len)).toNat = (c.read len).2.position := by
  have count : w.reader.toTell position len = (c.read len).1.length := by
    rw [Cursor.length_read, ← stored.length, ← there]
    rfl
  have most := c.length_read len
  have small : c.bytes.length < UInt64.size := stored.length ▸ w.length.toNat_lt_size
  constructor
  · rw [Reader.next, count]
    split_ifs with nothing
    · rw [List.eq_nil_of_length_eq_zero nothing]
    have some : c.bytes ≠ [] := fun e => nothing (by rw [most, e]; simp)
    have positive : 0 < w.width := stored.wide some
    rw [Reader.stretch_of_pos t positive (by omega) (count ▸ w.reader.inRange_toTell position len), most, there]
    exact congrArg Except.ok (Layout.read_ahead positive stored.bytes c.position len)
  · have fits : (UInt64.ofNat (c.read len).1.length).toNat = (c.read len).1.length :=
      UInt64.toNat_ofNat_of_lt (by omega)
    have below : c.position < UInt64.size := there ▸ position.toNat_lt_size
    rw [Reader.moved, count, UInt64.toNat_add, fits, there, Nat.mod_eq_of_lt (by show _ < UInt64.size; omega)]
    rfl

/-- where a seek leads, and whether it does -/
theorem seek_stored (goal : SeekFrom) :
    w.reader.answer t position (.seek goal) = .position <$> (c.seek goal).1 ∧
      (w.reader.moved position (.seek goal)).toNat = (c.seek goal).2.position := by
  have target := Reader.target_eq (d := w.reader) stored.length position goal
  rw [← Cursor.landing_eq there] at target
  rw [Reader.answer, Reader.moved, target, Cursor.seek]
  split_ifs with inside
  · have fits : (UInt64.ofNat (c.landing goal).toNat).toNat = (c.landing goal).toNat :=
      UInt64.toNat_ofNat_of_lt (by omega)
    exact ⟨rfl, fits⟩
  · exact ⟨rfl, there⟩

end

/-- a seek asks the table for nothing -/
theorem act_seek (h : Lectern) (goal : SeekFrom) :
    w.reader.act (.seek goal) h = (w.reader.answer t h.reader.position (.seek goal),
      { h with reader := { h.reader with position := w.reader.moved h.reader.position (.seek goal) } }) := by
  have read : w.reader.state.read h = (.ok h.reader, h) := rfl
  rw [Reader.act, map_apply, Reader.seek, bind_of_ok read, Reader.answer, Reader.moved]
  cases w.reader.target h.reader.position goal with
  | none => rfl
  | some p => rfl

section

variable {s : Bytes} {c : Cursor}

variable (w t) in
/-- the reader attends to its row, and stands where the cursor does -/
structure Stands (c : Cursor) (v : Layer ReaderState Unit) : Prop extends w.Attends t v where
  position : v.held.position.toNat = c.position

/-- **One step** goes as on the cursor. -/
theorem act_goes (stored : w.Stored t c.bytes) (stands : w.Stands t c h.view) (step : Step)
    (short : ∀ len, step = .read len → len ≤ longestBuffer) :
    ∃ c', w.Goes c step h c' ∧ c'.bytes = c.bytes ∧ w.Stands t c' (w.reader.act step h).2.view := by
  obtain ⟨attends', _, ends⟩ := ends_of_tells stands.toAttends (act_tells stands.toAttends step)
  have still (same : (w.reader.act step h).2.reader.position = h.reader.position) :
      w.Stands t c (w.reader.act step h).2.view := ⟨attends', same ▸ stands.position⟩
  cases step with
  | byteAt | bytesAt =>
    refine ⟨c, rfl, rfl, still ?_⟩
    rcases ends with ⟨_, moved⟩ | ⟨_, _, same⟩
    · rw [moved, Reader.moved, ite_self]
    · exact same
  | read len =>
    obtain ⟨told, moved⟩ := next_stored stored stands.position (short len rfl)
    rcases ends with ⟨ended, position⟩ | ⟨e, refused, same⟩
    · have answered : w.reader.answer t h.reader.position (.read len) = .ok (.bytes (c.read len).1) :=
        congrArg (Except.map Answer.bytes) told
      rw [answered] at ended position
      exact ⟨(c.read len).2, .inl ⟨ended, rfl⟩, rfl, attends', (congrArg UInt64.toNat position).trans moved⟩
    · exact ⟨c, .inr ⟨⟨e, refused⟩, rfl⟩, rfl, still same⟩
  | seek goal =>
    obtain ⟨told, moved⟩ := seek_stored stored stands.position goal
    have ended : w.reader.act (.seek goal) h = _ := act_seek (t := t) h goal
    have position := congrArg (fun r => r.2.reader.position.toNat) ended
    refine ⟨(c.seek goal).2, ⟨(congrArg Prod.fst ended).trans told, rfl⟩, ?_, attends', position.trans moved⟩
    rw [Cursor.seek]
    split_ifs
    · rfl
    · rfl

/-- **A run** does. -/
theorem run_follows (steps : List Step) (stored : w.Stored t c.bytes) (stands : w.Stands t c h.view)
    (short : ∀ len, .read len ∈ steps → len ≤ longestBuffer) : w.Follows c steps h := by
  induction steps generalizing c h with
  | nil => trivial
  | cons step steps ih =>
    obtain ⟨c', goes, bytes, stands'⟩ := act_goes stored stands step fun len e => short len (e ▸ List.mem_cons_self)
    have stored' : w.Stored t c'.bytes := by
      rw [bytes]
      exact stored
    exact ⟨c', goes, stands'.position, ih stored' stands' fun len later => short len (List.mem_cons_of_mem step later)⟩

end

/-- **A reader is a cursor.** Take a reader over a file of the bytes `s` in a table that does not change but refuses any
gets, and any run of reads at the cursor, seeks, and reads at offsets. Reads at the cursor and seeks answer as on a cursor
over `s` in memory and move the reader as far, unless a get of the read is refused: then the reader stays where it was, as
it does when bytes are read at offsets. What has failed is answered when it is taken again as if nothing had been refused.
(A read at the cursor fills a buffer, and none is longer than `longestBuffer`.) -/
theorem reader_is_cursor (w : Ways) (t : Table Column) (s : Bytes) (stored : w.Stored t s) (steps : List Step)
    (short : ∀ len, .read len ∈ steps → len ≤ longestBuffer) :
    w.Follows ⟨s, 0⟩ steps { data := t } ∧
      ∀ (step : Step) (e : Error), let h := w.after steps { data := t }
        (w.reader.act step h).1 = .error e →
          (w.calm.reader.act step (w.reader.act step h).2).1 = (w.calm.reader.act step h).1 := by
  have attends := Attends.start w t
  have stands : w.Stands t ⟨s, 0⟩ (view { data := t }) := ⟨attends, rfl⟩
  exact ⟨run_follows steps stored stands short, fun step e => act_again (after_attends attends steps)⟩

/-- the second read is refused its second column -/
theorem reader_is_cursor_refused :
    let w : Ways := ⟨4, "f", 7, fun n => if n = 1 then some (.backend "down") else none⟩
    let t := (Table.empty.put "f" 0 [1, 2, 3, 4]).put "f" 1 [5, 6, 7, 0]
    let steps : List Step := [.read 3, .read 9, .read 9, .seek (.stop (-9)), .seek (.current 2), .read 1, .byteAt 0,
      .seek (.start 2), .read 3]
    let h := w.after [.read 3] { data := t }
    w.Follows ⟨[1, 2, 3, 4, 5, 6, 7], 0⟩ steps { data := t } ∧
      (w.reader.act (.read 9) h).1 = .error (.backend "down") ∧
      (w.calm.reader.act (.read 9) (w.reader.act (.read 9) h).2).1 = .ok (.bytes [4, 5, 6, 7]) := by
  intro w t steps h
  have stored : w.Stored t [1, 2, 3, 4, 5, 6, 7] := ⟨rfl, by decide +kernel, fun _ => by decide⟩
  have nine : 9 ≤ longestBuffer := by decide
  have short (len : Nat) (read : .read len ∈ steps) : len ≤ longestBuffer := by
    simp only [steps, List.mem_cons, Step.read.injEq, List.not_mem_nil, reduceCtorEq, false_or, or_false] at read
    omega
  have refused : (w.reader.act (.read 9) h).1 = .error (.backend "down") := by decide +kernel
  refine ⟨(reader_is_cursor w t _ stored steps short).1, refused, ?_⟩
  have again := (reader_is_cursor w t _ stored [.read 3] fun len here => short len (by simp_all [steps])).2 _ _ refused
  rw [again]
  decide +kernel

end Ways

end Lectern

end RowFiles
