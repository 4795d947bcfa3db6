/-
What of a file is stored while writers are open.

A bureau holds a directory over a table of data and one of names, and any number of writers, at most one on each file. A
run on it opens writers, writes, flushes and closes them, and syncs the directory, in any order. Each writer keeps its
columns in a cache of its own, while all of them set lengths in one catalog, and every flush, close or sync writes out the
lengths of all files.

- `Accounts`: what a run comes to: the bytes appended to each file, those of them that its own writers have flushed, and
  the length last written out. `after_tells`: these are what the bureau stores, exactly.
- `stored_length`: so a stored length never exceeds the bytes appended, and the row of the file holds all bytes that it
  counts, unless the file has been overtaken: lengths were written out while bytes of its writer were yet to be flushed,
  and that writer has not been flushed or closed since.
- `stored_length_overtaken`: a file may be overtaken by the flush of another's writer.
-/
import Mathlib.Algebra.GroupWithZero.Nat
import Mathlib.Data.List.Induction
import RowFiles.Proofs.Files.Sessions
import RowFiles.Proofs.Store.Links
import RowFiles.Files.Directory

namespace RowFiles

open Run

/-! ## Accounts of runs -/

/-- what a run has come to at one file -/
structure Account where
  /-- the bytes appended, once a writer has been opened -/
  bytes : Option Bytes := none
  /-- those of them that the file's own writers have flushed -/
  flushed : Bytes := []
  /-- how many bytes there were when lengths were last written out -/
  recorded : Option Nat := none
  /-- whether a writer is open -/
  writing : Bool := false

namespace Account

variable (a : Account)

/-- the bytes appended, none if the file is not there -/
def appended : Bytes := a.bytes.getD []

/-- a writer is opened on the file, which is made if it is not there -/
def start : Account := { a with bytes := some a.appended, writing := true }

def write (buf : Bytes) : Account := { a with bytes := some (a.appended ++ buf) }

def flush : Account := { a with flushed := a.appended }

/-- the writer is flushed for the last time -/
def close : Account := { a with flushed := a.appended, writing := false }

/-- the length of the file is written out -/
def record : Account := { a with recorded := a.bytes.map List.length }

/-- what is always true of an account -/
structure Sound (width : Nat) (a : Account) : Prop where
  flushed : a.flushed <+: a.appended
  recorded : ∀ n, a.recorded = some n → n ≤ a.appended.length
  closed : a.writing = false → a.flushed = a.appended
  narrow : a.appended = [] ∨ width ≤ longestBuffer

namespace Sound

variable {width : Nat} {a : Account} (h : a.Sound width)

include h

theorem start : a.start.Sound width := ⟨h.flushed, h.recorded, fun e => Bool.noConfusion e, h.narrow⟩

theorem write {buf : Bytes} (writing : a.writing = true) (narrow : buf = [] ∨ width ≤ longestBuffer) :
    (a.write buf).Sound width := by
  have longer : a.appended <+: (a.write buf).appended := List.prefix_append a.appended buf
  refine ⟨h.flushed.trans longer, fun n hn => Nat.le_trans (h.recorded n hn) longer.length_le, fun closed => ?_, ?_⟩
  · exact absurd (writing.symm.trans closed) nofun
  · rcases narrow with rfl | narrow
    · exact h.narrow.imp (fun e => (List.append_nil _).trans e) id
    · exact .inr narrow

theorem flush : a.flush.Sound width := ⟨List.prefix_rfl, h.recorded, fun _ => rfl, h.narrow⟩

theorem close : a.close.Sound width := ⟨List.prefix_rfl, h.recorded, fun _ => rfl, h.narrow⟩

theorem record : a.record.Sound width := by
  refine ⟨h.flushed, fun n hn => ?_, h.closed, h.narrow⟩
  obtain ⟨b, there, rfl⟩ := Option.map_eq_some_iff.1 hn
  exact Nat.le_of_eq (congrArg (fun o => (Option.getD o []).length) there.symm)

end Sound

end Account

abbrev Accounts := Key → Account

/-- the account of one file is changed -/
def Accounts.change (A : Accounts) (key : Key) (f : Account → Account) : Accounts := Function.update A key (f (A key))

/-- the lengths of the files that are there -/
def Accounts.lengths (A : Accounts) (key : Key) : Option UInt64 := (A key).bytes.map fun b => UInt64.ofNat b.length

/-- the lengths of all files are written out -/
def Accounts.record (A : Accounts) : Accounts := fun key => (A key).record

inductive Bureau.Step where
  | start (key : Key)
  | write (key : Key) (buf : Bytes)
  | flush (key : Key)
  | close (key : Key)
  | sync

/-- how many bytes a step writes -/
def Bureau.Step.size : Bureau.Step → Nat
  | .write _ buf => buf.length
  | .start _ | .flush _ | .close _ | .sync => 0

/-- what a step comes to; a writer that is open is not opened again, and one that is not open does nothing. Where columns
are wider than any buffer no byte can be written, and where they have no width no writer can be opened. -/
def Accounts.after (width : Nat) (A : Accounts) : Bureau.Step → Accounts
  | .start key => if width = 0 ∨ (A key).writing then A else A.change key .start
  | .write key buf => if (A key).writing ∧ (buf = [] ∨ width ≤ longestBuffer) then A.change key (.write · buf) else A
  | .flush key => if (A key).writing then (A.change key .flush).record else A
  | .close key => if (A key).writing then (A.change key .close).record else A
  | .sync => A.record

/-- what a run comes to -/
def Accounts.of (width : Nat) (steps : List Bureau.Step) : Accounts := steps.foldl (Accounts.after width) fun _ => {}

namespace Accounts

variable {width : Nat} {A : Accounts}

theorem change_self (key : Key) (f : Account → Account) : A.change key f key = f (A key) := Function.update_self ..

theorem change_of_ne {key k : Key} (f : Account → Account) (other : k ≠ key) : A.change key f k = A k :=
  Function.update_of_ne other ..

/-- what a change leaves alone at its own file is left alone at every file -/
theorem change_field {β : Type} (field : Account → β) {key : Key} {f : Account → Account}
    (same : field (f (A key)) = field (A key)) (k : Key) : field (A.change key f k) = field (A k) := by
  by_cases here : k = key
  · subst here
    rw [change_self, same]
  · rw [change_of_ne f here]

theorem lengths_change (key : Key) (f : Account → Account) :
    (A.change key f).lengths =
      Function.update A.lengths key ((f (A key)).bytes.map fun b => UInt64.ofNat b.length) := by
  funext k
  by_cases here : k = key
  · subst here
    rw [lengths, change_self, Function.update_self]
  · rw [lengths, change_of_ne f here, Function.update_of_ne here, lengths]

theorem lengths_change_same {key : Key} {f : Account → Account} (same : (f (A key)).bytes = (A key).bytes) :
    (A.change key f).lengths = A.lengths := by
  funext k
  rw [lengths, lengths, change_field Account.bytes same]

/-- the length of a file is that of its bytes already -/
theorem lengths_update_self {key : Key} {y : Bytes} (there : (A key).bytes = some y) :
    Function.update A.lengths key (some (UInt64.ofNat y.length)) = A.lengths := by
  rw [Function.update_eq_self_iff, lengths, there]
  rfl

theorem change_sound (h : ∀ k, (A k).Sound width) {key : Key} {f : Account → Account} (here : (f (A key)).Sound width)
    (k : Key) : (A.change key f k).Sound width := by
  rw [change, Function.update_apply]
  split_ifs
  · exact here
  · exact h k

theorem after_sound (h : ∀ k, (A k).Sound width) (step : Bureau.Step) (k : Key) : (A.after width step k).Sound width := by
  cases step with
  | start key =>
    rw [after]
    split_ifs
    · exact h k
    · exact change_sound h (h key).start k
  | write key buf =>
    rw [after]
    split_ifs with taken
    · exact change_sound h ((h key).write taken.1 taken.2) k
    · exact h k
  | flush key =>
    rw [after]
    split_ifs
    · exact (change_sound h (h key).flush k).record
    · exact h k
  | close key =>
    rw [after]
    split_ifs
    · exact (change_sound h (h key).close k).record
    · exact h k
  | sync => exact (h k).record

/-- bytes are only ever appended, and no more than are written -/
theorem after_appended (width : Nat) (A : Accounts) (step : Bureau.Step) (k : Key) :
    ∃ more, (A.after width step k).appended = (A k).appended ++ more ∧ more.length ≤ step.size := by
  have same : ∃ more, (A k).appended = (A k).appended ++ more ∧ more.length ≤ step.size :=
    ⟨[], (List.append_nil _).symm, Nat.zero_le _⟩
  have change {key : Key} {f : Account → Account}
      (here : ∃ more, (f (A key)).appended = (A key).appended ++ more ∧ more.length ≤ step.size) :
      ∃ more, (A.change key f k).appended = (A k).appended ++ more ∧ more.length ≤ step.size := by
    by_cases own : k = key
    · subst own
      rw [change_self]
      exact here
    · rw [change_of_ne f own]
      exact same
  have kept {key : Key} {f : Account → Account} (here : (f (A key)).appended = (A key).appended) :
      ∃ more, (A.change key f k).appended = (A k).appended ++ more ∧ more.length ≤ step.size :=
    change_field Account.appended here k ▸ same
  cases step with
  | start key =>
    rw [after]
    split_ifs
    · exact same
    · exact kept rfl
  | write key buf =>
    rw [after]
    split_ifs
    · exact change ⟨buf, rfl, Nat.le_refl _⟩
    · exact same
  | flush key =>
    rw [after]
    split_ifs
    · exact kept (f := .flush) rfl
    · exact same
  | close key =>
    rw [after]
    split_ifs
    · exact kept (f := .close) rfl
    · exact same
  | sync => exact same

theorem of_sound (width : Nat) (steps : List Bureau.Step) (k : Key) : (of width steps k).Sound width := by
  suffices all : ∀ A : Accounts, (∀ k, (A k).Sound width) → (steps.foldl (after width) A k).Sound width from
    all _ fun _ => ⟨List.prefix_rfl, nofun, fun _ => rfl, .inl rfl⟩
  induction steps with
  | nil => exact fun A h => h k
  | cons step steps ih => exact fun A h => ih _ (after_sound h step)

theorem of_snoc (width : Nat) (steps : List Bureau.Step) (step : Bureau.Step) :
    of width (steps ++ [step]) = (of width steps).after width step := by
  rw [of, of, List.foldl_append]
  rfl

theorem of_length_le (width : Nat) (steps : List Bureau.Step) (k : Key) :
    (of width steps k).appended.length ≤ (steps.map Bureau.Step.size).sum := by
  induction steps using List.reverseRecOn with
  | nil => exact Nat.zero_le _
  | append_singleton steps step ih =>
    obtain ⟨more, longer, short⟩ := after_appended width (of width steps) step k
    rw [of_snoc, longer, List.length_append, List.map_append, List.sum_append, List.map_singleton, List.sum_singleton]
    exact Nat.add_le_add ih short

/-! ### Files that are overtaken -/

/-- a step writes out lengths, and is neither a flush nor the close of the file's own writer -/
def Publishes (A : Accounts) (key : Key) : Bureau.Step → Prop
  | .flush k | .close k => k ≠ key ∧ (A k).writing = true
  | .sync => True
  | .start _ | .write .. => False

/-- lengths were written out while bytes of the file's own writer were yet to be flushed, and that writer has not been
flushed or closed since -/
def Overtaken (width : Nat) (steps : List Bureau.Step) (key : Key) : Prop :=
  ∃ before step later, steps = before ++ step :: later ∧ Publishes (of width before) key step ∧
    (of width before key).flushed ≠ (of width before key).appended ∧ .flush key ∉ later ∧ .close key ∉ later

theorem Overtaken.snoc {steps : List Bureau.Step} {key : Key} (h : Overtaken width steps key) {step : Bureau.Step}
    (flush : step ≠ .flush key) (close : step ≠ .close key) : Overtaken width (steps ++ [step]) key := by
  obtain ⟨before, first, later, rfl, publishes, unflushed, notFlushed, notClosed⟩ := h
  refine ⟨before, first, later ++ [step], by simp, publishes, unflushed, ?_, ?_⟩
  · simpa using ⟨notFlushed, Ne.symm flush⟩
  · simpa using ⟨notClosed, Ne.symm close⟩

/-- what a step, other than a flush or the close of the file's own writer, leaves of the file's account -/
theorem after_other (width : Nat) (A : Accounts) {key : Key} {step : Bureau.Step} (flush : step ≠ .flush key) (close : step ≠ .close key) :
    (A.after width step key).flushed = (A key).flushed ∧
      ((A.after width step key).recorded = (A key).recorded ∧ ¬ Publishes A key step ∨
        (A.after width step key).recorded = (A key).bytes.map List.length ∧ Publishes A key step) := by
  cases step with
  | start k =>
    rw [after]
    split_ifs
    · exact ⟨rfl, .inl ⟨rfl, nofun⟩⟩
    · exact ⟨change_field Account.flushed rfl key, .inl ⟨change_field Account.recorded rfl key, nofun⟩⟩
  | write k buf =>
    rw [after]
    split_ifs
    · exact ⟨change_field Account.flushed rfl key, .inl ⟨change_field Account.recorded rfl key, nofun⟩⟩
    · exact ⟨rfl, .inl ⟨rfl, nofun⟩⟩
  | flush k | close k =>
    have other : k ≠ key := fun e => by subst e; contradiction
    rw [after]
    split_ifs with writing
    · rw [record, change_of_ne _ (Ne.symm other)]
      exact ⟨rfl, .inr ⟨rfl, other, writing⟩⟩
    · exact ⟨rfl, .inl ⟨rfl, fun h => writing h.2⟩⟩
  | sync => exact ⟨rfl, .inr ⟨rfl, trivial⟩⟩

/-- a length that is written out counts bytes that are not flushed -/
def Ahead (a : Account) : Prop := ∃ n, a.recorded = some n ∧ a.flushed.length < n

theorem ahead_of_recorded {a b : Account} (recorded : b.recorded = a.bytes.map List.length) (flushed : b.flushed = a.flushed)
    (short : a.flushed.length < a.appended.length) : Ahead b := by
  cases there : a.bytes with
  | none =>
    rw [Account.appended, there] at short
    cases short
  | some bytes =>
    rw [Account.appended, there] at short
    exact ⟨bytes.length, by rw [recorded, there]; rfl, by rw [flushed]; exact short⟩

/-- the file's own writer catches up when it is flushed or closed -/
theorem not_ahead_own (h : ∀ k, (A k).Sound width) {key : Key} {step : Bureau.Step}
    (own : step = .flush key ∨ step = .close key) : ¬ Ahead (A.after width step key) := by
  rintro ⟨n, recorded, ahead⟩
  have sound := after_sound h step key
  suffices caught : (A.after width step key).flushed = (A.after width step key).appended by
    rw [caught] at ahead
    exact absurd (sound.recorded n recorded) (Nat.not_le.2 ahead)
  have here (f : Account → Account) : (A.change key f).record key = (f (A key)).record := by rw [record, change_self]
  have idle (writing : ¬ (A key).writing = true) : (A key).flushed = (A key).appended :=
    (h key).closed (Bool.not_eq_true _ ▸ writing)
  rcases own with rfl | rfl
  · rw [after]
    split_ifs with writing
    · rw [here]
      rfl
    · exact idle writing
  · rw [after]
    split_ifs with writing
    · rw [here]
      rfl
    · exact idle writing

theorem Publishes.other {key : Key} {step : Bureau.Step} (h : Publishes A key step) :
    step ≠ .flush key ∧ step ≠ .close key := by
  cases step with
  | flush k => exact ⟨fun e => h.1 (by injection e), nofun⟩
  | close k => exact ⟨nofun, fun e => h.1 (by injection e)⟩
  | sync => exact ⟨nofun, nofun⟩
  | start | write => exact h.elim

/-- a length counts bytes that are not flushed just when the file has been overtaken -/
theorem ahead_iff (width : Nat) (steps : List Bureau.Step) (key : Key) :
    Ahead (of width steps key) ↔ Overtaken width steps key := by
  constructor
  · induction steps using List.reverseRecOn with
    | nil =>
      intro h
      obtain ⟨_, recorded, _⟩ := h
      cases recorded
    | append_singleton steps step ih =>
      intro h
      rw [of_snoc] at h
      by_cases own : step = .flush key ∨ step = .close key
      · exact absurd h (not_ahead_own (of_sound width steps) own)
      obtain ⟨flush, close⟩ := not_or.1 own
      obtain ⟨flushed, ⟨recorded, _⟩ | ⟨recorded, publishes⟩⟩ := after_other width (of width steps) flush close
      · refine (ih ?_).snoc flush close
        rwa [Ahead, flushed, recorded] at h
      · refine ⟨steps, step, [], rfl, publishes, fun all => ?_, List.not_mem_nil, List.not_mem_nil⟩
        obtain ⟨n, counted, ahead⟩ := h
        have sound := after_sound (of_sound width steps) step key
        rw [recorded, Option.map_eq_some_iff] at counted
        obtain ⟨bytes, there, rfl⟩ := counted
        rw [flushed, all, Account.appended, there] at ahead
        exact absurd ahead (Nat.lt_irrefl _)
  · rintro ⟨before, step, later, rfl, publishes, unflushed, notFlushed, notClosed⟩
    induction later using List.reverseRecOn with
    | nil =>
      obtain ⟨flush, close⟩ := publishes.other
      obtain ⟨flushed, ⟨_, silent⟩ | ⟨recorded, _⟩⟩ := after_other width (of width before) flush close
      · exact absurd publishes silent
      · have sound := (of_sound width before key).flushed
        have short := Nat.lt_of_le_of_ne sound.length_le fun e => unflushed (sound.eq_of_length e)
        rw [of_snoc]
        exact ahead_of_recorded recorded flushed short
    | append_singleton later last ih =>
      have flush : last ≠ .flush key := fun e => notFlushed (by simp [e])
      have close : last ≠ .close key := fun e => notClosed (by simp [e])
      obtain ⟨n, counted, ahead⟩ := ih (fun h => notFlushed (List.mem_append_left _ h))
        fun h => notClosed (List.mem_append_left _ h)
      rw [← List.cons_append, ← List.append_assoc, of_snoc]
      obtain ⟨flushed, ⟨recorded, _⟩ | ⟨recorded, _⟩⟩ :=
        after_other width (of width (before ++ step :: later)) flush close
      · exact ⟨n, recorded.trans counted, flushed ▸ ahead⟩
      · exact ahead_of_recorded recorded flushed
          (Nat.lt_of_lt_of_le ahead ((of_sound width (before ++ step :: later) key).recorded n counted))

end Accounts

/-! ## A bureau -/

structure Bureau where
  data : Table Column := .empty
  names : Table Column := .empty
  catalog : CatalogState := {}
  /-- the writers that are open -/
  writers : Key → Option WriterState := fun _ => none
  /-- how often an order has been drawn -/
  drawn : Nat := 0

namespace Bureau

/-- the widths of a bureau's tables, and the orders in which it writes cells and files -/
structure Ways where
  width : Nat
  nameWidth : Nat
  /-- the order drawn at the `n`th time for some cells -/
  cells : Nat → List (Address Column) → List (Address Column)
  /-- the order drawn at the `n`th time for some files -/
  files : Nat → List Key → List Key
  cells_perm : ∀ n as, (cells n as).Perm as
  files_perm : ∀ n keys, (files n keys).Perm keys

/-- an order of a list of any kind, drawn from the bureau -/
def draw {α : Type} (orders : Nat → List α → List α) (as : List α) : Run Bureau (List α) :=
  fun b => (.ok (orders b.drawn as), { b with drawn := b.drawn + 1 })

/-- the writer on a file -/
def desk (key : Key) : Part (Run Bureau) WriterState :=
  Run.part (fun b => (b.writers key).getD {}) fun x b => { b with writers := Function.update b.writers key (some x) }

theorem desk_writers (key : Key) (x : WriterState) (b : Bureau) :
    ((desk key).write x b).2.writers = Function.update b.writers key (some x) := rfl

/-- the writer of a file goes -/
def leave (key : Key) : Run Bureau Unit := fun b => (.ok (), { b with writers := Function.update b.writers key none })

theorem leave_writers (key : Key) (b : Bureau) : (leave key b).2.writers = Function.update b.writers key none := rfl

/-- does something if a writer is open on a file -/
def whenOpen (key : Key) (x : Run Bureau Unit) : Run Bureau Unit := fun b =>
  if (b.writers key).isSome then x b else (.ok (), b)

namespace Ways

variable (w : Ways)

def directory : Directory (Run Bureau) where
  identity := 0
  data := Table.store (Run.part Bureau.data fun t b => { b with data := t }) w.width
  catalog :=
    { rows := Table.rows (Run.part Bureau.names fun t b => { b with names := t }) w.nameWidth
      state := Run.part Bureau.catalog fun x b => { b with catalog := x }
      order := draw w.files }
  settings := {}
  now := pure 0
  order := draw w.cells

def writer (key : Key) : Writer (Run Bureau) := w.directory.writer key (desk key)

/-- opens a writer on a file -/
def start (key : Key) : Run Bureau Unit := do (desk key).write (← w.directory.startWriter key)

def act : Step → Run Bureau Unit
  | .start key => fun b => if (b.writers key).isSome then (.ok (), b) else w.start key b
  | .write key buf => whenOpen key ((w.writer key).write buf)
  | .flush key => whenOpen key (w.writer key).flush
  | .close key => whenOpen key do (w.writer key).close; leave key
  | .sync => w.directory.sync

/-- the bureau after some steps, whatever each of them answers -/
def after (steps : List Step) (b : Bureau) : Bureau := steps.foldl (fun b step => (w.act step b).2) b

end Ways

/-! ### What a bureau shows -/

/-- a writer's view of a bureau; the rest are all writers, as they were -/
def Shown (key : Key) (b : Bureau) (u : Layer CatalogState (Layer WriterState (Key → Option WriterState))) : Prop :=
  b.catalog = u.held ∧ b.names = u.beneath ∧ b.writers = Function.update u.rest.rest key (some u.rest.held) ∧
    b.data = u.rest.beneath

theorem Shown.writer {key : Key} {b : Bureau} {u : Layer CatalogState (Layer WriterState (Key → Option WriterState))}
    (h : Shown key b u) : b.writers key = some u.rest.held := by rw [h.2.2.1, Function.update_self]

/-- the catalog's view of a bureau -/
def Filed (b : Bureau) (v : Layer CatalogState (Table Column × (Key → Option WriterState))) : Prop :=
  b.catalog = v.held ∧ b.names = v.beneath ∧ (b.data, b.writers) = v.rest

variable (w : Ways)

theorem catalog_laws : w.directory.catalog.Laws Filed Eq where
  inner _ _ := Table.rows_serve (fun _ _ hs => hs.2.1) (fun _ _ _ hs => ⟨hs.1, rfl, hs.2.2⟩) w.nameWidth never
  read _ _ hs := ⟨_, hs, _, rfl, hs.1, rfl⟩
  write x u _ hs := ⟨{ u with held := x }, ⟨rfl, hs.2⟩, (), rfl, rfl⟩
  order ks u _ hs := ⟨u, hs, _, rfl, w.files_perm _ ks, rfl⟩

theorem writer_laws (key : Key) : (w.writer key).Laws (Shown key) Eq where
  catalog :=
    { inner := fun _ _ =>
        Table.rows_serve (fun _ _ hs => hs.2.1) (fun _ _ _ hs => ⟨hs.1, rfl, hs.2.2⟩) w.nameWidth never
      read := fun _ _ hs => ⟨_, hs, _, rfl, hs.1, rfl⟩
      write := fun x u _ hs => ⟨{ u with held := x }, ⟨rfl, hs.2⟩, (), rfl, rfl⟩
      order := fun ks u _ hs => ⟨u, hs, _, rfl, w.files_perm _ ks, rfl⟩ }
  writer _ _ :=
    { inner := fun _ _ =>
        Table.rows_serve (fun _ _ hs => hs.2.2.2) (fun _ _ _ hs => ⟨hs.1, hs.2.1, hs.2.2.1, rfl⟩) w.width never
      read := fun v b hs => ⟨v, hs, _, rfl, congrArg (Option.getD · {}) (Shown.writer hs), rfl⟩
      write := fun x v b hs => by
        refine ⟨{ v with held := x }, ⟨hs.1, hs.2.1, ?_, hs.2.2.2⟩, (), rfl, rfl⟩
        exact (congrArg (Function.update · key (some x)) hs.2.2.1).trans (Function.update_idem ..) }
  order as u _ hs := ⟨u, hs, _, rfl, w.cells_perm _ as, rfl⟩

/-! ### What a bureau stores -/

/-- a writer that is open on a file of some bytes: all it caches are cells of the file, and with the table of data it
stands for the row of the bytes -/
structure Draft (width : Nat) (data : Table Column) (key : Key) (x : WriterState) (bytes : Bytes) : Prop where
  pointer : x.pointer = UInt64.ofNat bytes.length
  own : ∀ a v, x.cache.value? a = some v → a.key = key
  cells : ∃ p, Coherent [] x.cache data p ∧ Layout.Holds width p key bytes ∧ ∀ k ≠ key, ∀ c, p.get k c = data.get k c

/-- other rows do not matter to a writer -/
theorem Draft.congr {width : Nat} {data data' : Table Column} {key : Key} {x : WriterState} {bytes : Bytes}
    (h : Draft width data key x bytes) (same : ∀ c, data'.get key c = data.get key c) : Draft width data' key x bytes := by
  obtain ⟨p, coherent, holds, _⟩ := h.cells
  have row (c : Column) : (data'.adopt key p key).get key c = p.get key c := by rw [Table.get_adopt, if_pos rfl]
  have others (k : Key) (other : k ≠ key) (c : Column) : (data'.adopt key p key).get k c = data'.get k c := by
    rw [Table.get_adopt, if_neg (Ne.symm other)]
  refine ⟨h.pointer, h.own, data'.adopt key p key, ⟨coherent.kept, fun a v cached => ?_, fun a unmarked owed => ?_⟩,
    holds.congr row, others⟩
  · obtain rfl := h.own a v cached
    rw [row]
    exact coherent.shadow a v cached
  · by_cases here : a.key = key
    · subst here
      rw [row, same]
      exact coherent.clean a unmarked owed
    · rw [others _ here]

/-- a bureau stores what the accounts say -/
structure Tells (w : Ways) (b : Bureau) (A : Accounts) : Prop where
  lengths : Catalog.Coherent (fun _ => True) A.lengths [] b.catalog b.names
  recorded : ∀ k, b.names.get (Catalog.lengthRow k) Catalog.lengthColumn =
    (A k).recorded.map fun n => Bytes.ofUInt64 (UInt64.ofNat n)
  flushed : ∀ k, Layout.Holds w.width b.data k (A k).flushed
  writing : ∀ k x, b.writers k = some x →
    0 < w.width ∧ (A k).writing = true ∧ ∃ y, (A k).bytes = some y ∧ Draft w.width b.data k x y
  closed : ∀ k, b.writers k = none → (A k).writing = false

namespace Tells

variable {w} {b b' : Bureau} {A A' : Accounts} {key : Key} {x : WriterState}

/-- what happens at one file leaves the others alone -/
theorem change (key : Key) (h : Tells w b A) (lengths : Catalog.Coherent (fun _ => True) A'.lengths [] b'.catalog b'.names)
    (recorded : ∀ k, b'.names.get (Catalog.lengthRow k) Catalog.lengthColumn =
      (A' k).recorded.map fun n => Bytes.ofUInt64 (UInt64.ofNat n))
    (data : ∀ k ≠ key, ∀ c, b'.data.get k c = b.data.get k c) (writers : ∀ k ≠ key, b'.writers k = b.writers k)
    (accounts : ∀ k ≠ key, (A' k).bytes = (A k).bytes ∧ (A' k).flushed = (A k).flushed ∧ (A' k).writing = (A k).writing)
    (flushed : Layout.Holds w.width b'.data key (A' key).flushed)
    (writing : ∀ x, b'.writers key = some x →
      0 < w.width ∧ (A' key).writing = true ∧ ∃ y, (A' key).bytes = some y ∧ Draft w.width b'.data key x y)
    (closed : b'.writers key = none → (A' key).writing = false) : Tells w b' A' := by
  refine ⟨lengths, recorded, fun k => ?_, fun k x now => ?_, fun k gone => ?_⟩
  · by_cases here : k = key
    · exact here ▸ flushed
    · rw [(accounts k here).2.1]
      exact (h.flushed k).congr (data k here)
  · by_cases here : k = key
    · subst here
      exact writing x now
    · obtain ⟨bytes, _, same⟩ := accounts k here
      rw [writers k here] at now
      obtain ⟨positive, isWriting, y, there, draft⟩ := h.writing k x now
      exact ⟨positive, same.trans isWriting, y, bytes.trans there, draft.congr (data k here)⟩
  · by_cases here : k = key
    · subst here
      exact closed gone
    · rw [writers k here] at gone
      exact (accounts k here).2.2.trans (h.closed k gone)

/-- the lengths of a bureau, as its catalog's view tells them -/
theorem records (h : Tells w b A) :
    Layer.Records (⟨b.catalog, b.names, (b.data, b.writers)⟩ : Layer CatalogState _) (fun _ => True) A.lengths
      (b.data, b.writers) := ⟨h.lengths, rfl⟩

/-- an open writer, as its own view of the bureau tells it -/
theorem opened (h : Tells w b A) (now : b.writers key = some x) :
    ∃ y p u, (A key).bytes = some y ∧ Shown key b u ∧ u.beneath = b.names ∧ u.rest.beneath = b.data ∧ u.rest.held = x ∧
      (w.writer key).Opened (fun _ => True) A.lengths b.writers (UInt64.ofNat y.length) p x.digest u ∧
      Layout.Holds w.width p key y ∧ ∀ k ≠ key, ∀ c, p.get k c = b.data.get k c := by
  obtain ⟨_, _, y, there, draft⟩ := h.writing key x now
  obtain ⟨p, coherent, holds, others⟩ := draft.cells
  have known := Accounts.lengths_update_self there
  refine ⟨y, p, ⟨b.catalog, b.names, ⟨x, b.data, b.writers⟩⟩, there, ⟨rfl, rfl, ?_, rfl⟩, rfl, rfl, rfl, ?_, holds, others⟩
  · rw [Function.update_eq_self_iff.2 now.symm]
  · exact ⟨draft.pointer, rfl, known.symm ▸ h.lengths, coherent, rfl⟩

/-- **A write** appends to the file, in the writer's cache alone. -/
theorem write (h : Tells w b A) (now : b.writers key = some x) {buf : Bytes}
    (narrow : buf = [] ∨ w.width ≤ longestBuffer) (small : ((A key).write buf).appended.length < UInt64.size) :
    Tells w ((w.writer key).write buf b).2 (A.change key (.write · buf)) := by
  obtain ⟨positive, isWriting, _, _, draft⟩ := h.writing key x now
  obtain ⟨y, p, u, there, shown, names, data, rfl, opened, holds, others⟩ := h.opened now
  have appended : (A key).appended = y := by rw [Account.appended, there]; rfl
  have total : y.length + buf.length < UInt64.size := by
    rw [← List.length_append, ← appended]
    exact small
  have start : (UInt64.ofNat y.length).toNat = y.length := UInt64.toNat_ofNat_of_lt (by omega)
  have fits : Writer.Takes w.width (UInt64.ofNat y.length).toNat buf := narrow.imp id fun narrow => ⟨narrow, by rwa [start]⟩
  obtain ⟨u', shown', _, _, opened', data', _, names', cells⟩ := (writer_laws w key).write fits opened b shown
  rw [start] at opened'
  have longer := holds.writeSpans positive buf (Nat.le_of_lt total)
  have sum : UInt64.ofNat y.length + UInt64.ofNat buf.length = UInt64.ofNat (y ++ buf).length := by
    rw [List.length_append, UInt64.ofNat_add]
  have writers := shown'.2.2.1
  rw [opened'.rest] at writers
  have sameNames : ((w.writer key).write buf b).2.names = b.names := shown'.2.1.trans (names'.trans names)
  have sameData : ((w.writer key).write buf b).2.data = b.data := shown'.2.2.2.trans (data'.trans data)
  refine h.change key ?_ (fun k => ?_) (fun k _ c => by rw [sameData]) (fun k other => ?_) (fun k other => ?_) ?_
    (fun x' current => ?_) fun gone => ?_
  · have lengths := opened'.lengths
    rw [sum] at lengths
    rw [Accounts.lengths_change, shown'.1, shown'.2.1, Account.write, appended]
    exact lengths
  · rw [sameNames, h.recorded k]
    exact congrArg (Option.map _) (Accounts.change_field Account.recorded rfl k).symm
  · rw [writers, Function.update_of_ne other]
  · rw [Accounts.change_of_ne _ other]
    exact ⟨rfl, rfl, rfl⟩
  · rw [sameData, Accounts.change_self]
    exact h.flushed key
  · obtain rfl : u'.rest.held = x' := Option.some.inj (shown'.writer.symm.trans current)
    rw [Accounts.change_self]
    refine ⟨positive, isWriting, y ++ buf, by rw [Account.write, appended], ?_⟩
    refine ⟨opened'.pointer.trans sum, fun a v cached => ?_, _, ?_, longer, fun k other c => ?_⟩
    · by_contra foreign
      rw [cells a foreign] at cached
      exact foreign (draft.own a v cached)
    · rw [shown'.2.2.2]
      exact opened'.cells
    · rw [Layout.get_writeSpans other, others k other, sameData]
  · rw [shown'.writer] at gone
    cases gone

/-- no byte can be written where columns are wider than any buffer -/
theorem write_refused (h : Tells w b A) (sound : (A key).Sound w.width) (now : b.writers key = some x) {buf : Bytes}
    (some : buf ≠ []) (wide : ¬ w.width ≤ longestBuffer) : Tells w ((w.writer key).write buf b).2 A := by
  obtain ⟨y, p, u, there, shown, names, data, rfl, opened, holds, others⟩ := h.opened now
  have empty : y = [] := by
    have nothing := sound.narrow.resolve_right wide
    rw [Account.appended, there] at nothing
    exact nothing
  have absent (c : Column) : p.get key c = none := by
    rw [holds c, empty]
    exact if_neg (Nat.not_lt_zero _)
  obtain ⟨u', shown', _, rfl⟩ :=
    (writer_laws w key).write_untaken (Nat.not_le.1 wide) some absent opened b shown
  have catalog : ((w.writer key).write buf b).2.catalog = b.catalog := shown'.1.trans shown.1.symm
  have names' : ((w.writer key).write buf b).2.names = b.names := shown'.2.1.trans shown.2.1.symm
  have writers : ((w.writer key).write buf b).2.writers = b.writers := shown'.2.2.1.trans shown.2.2.1.symm
  have data' : ((w.writer key).write buf b).2.data = b.data := shown'.2.2.2.trans shown.2.2.2.symm
  exact ⟨by rw [catalog, names']; exact h.lengths, by rw [names']; exact h.recorded, by rw [data']; exact h.flushed,
    by rw [writers, data']; exact h.writing, by rw [writers]; exact h.closed⟩

/-- what a flush leaves: the row of data holds all bytes of the file, and the lengths of all files are written out -/
theorem flush_run (h : Tells w b A) (now : b.writers key = some x) :
    ∃ b' x' y, (w.writer key).flush b = (.ok (), b') ∧ (A key).bytes = some y ∧
      b'.writers = Function.update b.writers key (some x') ∧ Draft w.width b'.data key x' y ∧
      Layout.Holds w.width b'.data key y ∧ (∀ k ≠ key, ∀ c, b'.data.get k c = b.data.get k c) ∧
      Catalog.Coherent (fun _ => True) A.lengths [] b'.catalog b'.names ∧
      ∀ k, b'.names.get (Catalog.lengthRow k) Catalog.lengthColumn = (A.lengths k).map Bytes.ofUInt64 := by
  obtain ⟨y, p, u, there, shown, _, _, rfl, opened, holds, others⟩ := h.opened now
  obtain ⟨_, b', u', run, shown', opened', flushed, _, empty⟩ := ((writer_laws w key).flush opened).run shown
  have known := Accounts.lengths_update_self there
  have data : b'.data = p := shown'.2.2.2.trans (opened'.beneath flushed)
  have lengths : Catalog.Coherent (fun _ => True) A.lengths [] b'.catalog b'.names := by
    rw [shown'.1, shown'.2.1, ← known]
    exact opened'.lengths
  have clean (k : Key) : k ∉ b'.catalog.dirty := shown'.1 ▸ flushed.lengths k
  have writers : b'.writers = Function.update b.writers key (some u'.rest.held) := by
    rw [shown'.2.2.1, opened'.rest]
  refine ⟨b', u'.rest.held, y, run, there, writers, ⟨opened'.pointer, fun a v cached => ?_, p, ?_, holds, fun _ _ _ => by rw [data]⟩,
    data ▸ holds, fun k other c => by rw [data, others k other], lengths, fun k => lengths.get_of_clean trivial clean⟩
  · rw [empty] at cached
    cases cached
  · rw [shown'.2.2.2]
    exact opened'.cells

/-- the lengths that a flush writes out are those of the accounts -/
theorem recorded_of_lengths {t : Table Column} (A : Accounts)
    (written : ∀ k, t.get (Catalog.lengthRow k) Catalog.lengthColumn = (A.lengths k).map Bytes.ofUInt64) (k : Key) :
    t.get (Catalog.lengthRow k) Catalog.lengthColumn =
      (A.record k).recorded.map fun n => Bytes.ofUInt64 (UInt64.ofNat n) := by
  rw [written, Accounts.lengths, Accounts.record, Account.record, Option.map_map, Option.map_map]
  rfl

/-- **A flush** stores all bytes of the file, and the lengths of all files. -/
theorem flush (h : Tells w b A) (now : b.writers key = some x) :
    Tells w ((w.writer key).flush b).2 (A.change key .flush).record := by
  obtain ⟨positive, isWriting, _⟩ := h.writing key x now
  obtain ⟨b', x', y, run, there, writers, draft, holds, others, lengths, written⟩ := h.flush_run now
  have same : (A.change key .flush).lengths = A.lengths := Accounts.lengths_change_same rfl
  rw [run]
  refine h.change key (same ▸ lengths) (recorded_of_lengths _ (same ▸ written)) others
    (fun k other => by rw [writers, Function.update_of_ne other]) (fun k other => ?_) ?_ (fun x'' current => ?_) fun gone => ?_
  · rw [Accounts.record, Accounts.change_of_ne _ other]
    exact ⟨rfl, rfl, rfl⟩
  · rw [Accounts.record, Accounts.change_self, Account.record, Account.flush, Account.appended, there]
    exact holds
  · rw [writers, Function.update_self] at current
    obtain rfl := Option.some.inj current
    rw [Accounts.record, Accounts.change_self]
    exact ⟨positive, isWriting, y, there, draft⟩
  · rw [writers, Function.update_self] at gone
    cases gone

/-- **A writer that is closed** has stored all bytes of the file, and the lengths of all files. -/
theorem close (h : Tells w b A) (now : b.writers key = some x) :
    Tells w ((do (w.writer key).close; leave key : Run Bureau Unit) b).2 (A.change key .close).record := by
  obtain ⟨b', x', y, run, there, writers, _, holds, others, lengths, written⟩ := h.flush_run now
  have same : (A.change key .close).lengths = A.lengths := Accounts.lengths_change_same rfl
  rw [Writer.close, bind_of_ok run]
  refine h.change key (same ▸ lengths) (recorded_of_lengths _ (same ▸ written)) others
    (fun k other => ?_) (fun k other => ?_) ?_ (fun x'' current => ?_) fun _ => ?_
  · rw [leave_writers, Function.update_of_ne other, writers, Function.update_of_ne other]
  · rw [Accounts.record, Accounts.change_of_ne _ other]
    exact ⟨rfl, rfl, rfl⟩
  · rw [Accounts.record, Accounts.change_self, Account.record, Account.close, Account.appended, there]
    exact holds
  · rw [leave_writers, Function.update_self] at current
    cases current
  · rw [Accounts.record, Accounts.change_self]
    rfl

/-- **A writer that is opened** starts where the file ends. -/
theorem start (h : Tells w b A) (sound : (A key).Sound w.width) (gone : b.writers key = none) (positive : 0 < w.width) :
    Tells w (w.start key b).2 (A.change key .start) := by
  have closed := h.closed key gone
  have found : (A.lengths key).getD 0 = UInt64.ofNat (A key).appended.length := by
    rw [Accounts.lengths, Account.appended]
    cases (A key).bytes with
    | none => rfl
    | some y => rfl
  obtain ⟨_, b', v, run, filed, rfl, ⟨lengths, rest⟩, _, names⟩ :=
    (Writer.start_records (catalog_laws w) w.directory.data.toRows positive trivial h.records).run ⟨rfl, rfl, rfl⟩
  rw [found, ← filed.1, ← filed.2.1] at lengths
  obtain ⟨data, writers⟩ := Prod.mk.inj (filed.2.2.trans rest)
  have same : b'.names = b.names := filed.2.1.trans names
  have opens : (w.start key b).2 = ((desk key).write { pointer := (A.lengths key).getD 0 } b').2 :=
    congrArg Prod.snd (bind_of_ok run)
  rw [opens]
  refine h.change key ?_ (fun k => ?_) (fun k _ c => congrArg (Table.get · k c) data) (fun k other => ?_)
    (fun k other => ?_) ?_ (fun x' current => ?_) fun gone => ?_
  · rw [Accounts.lengths_change]
    exact lengths
  · refine (congrArg (Table.get · _ _) same).trans ?_
    rw [h.recorded k]
    exact congrArg (Option.map _) (Accounts.change_field Account.recorded rfl k).symm
  · rw [desk_writers, Function.update_of_ne other, writers]
  · rw [Accounts.change_of_ne _ other]
    exact ⟨rfl, rfl, rfl⟩
  · rw [Accounts.change_self]
    exact (h.flushed key).congr fun c => congrArg (Table.get · key c) data
  · rw [desk_writers, Function.update_self] at current
    obtain rfl := Option.some.inj current
    rw [Accounts.change_self]
    refine ⟨positive, rfl, (A key).appended, rfl, found, fun a v cached => ?_, b'.data, .new _, ?_, fun _ _ _ => rfl⟩
    · simp [CacheState.value?] at cached
    · rw [data, ← sound.closed closed]
      exact h.flushed key
  · rw [desk_writers, Function.update_self] at gone
    cases gone

/-- **A sync** stores the lengths of all files. -/
theorem sync (h : Tells w b A) : Tells w (w.directory.sync b).2 A.record := by
  obtain ⟨_, b', v, run, filed, ⟨lengths, rest⟩, clean, _⟩ := ((catalog_laws w).flush h.records).run ⟨rfl, rfl, rfl⟩
  have synced : w.directory.sync b = (.ok (), b') := by
    have first : w.directory.data.sync b = (.ok (), b) := rfl
    rw [Directory.sync, bind_of_ok first, bind_of_ok run]
    rfl
  rw [← filed.1, ← filed.2.1] at lengths
  obtain ⟨data, writers⟩ := Prod.mk.inj (filed.2.2.trans rest)
  rw [synced]
  refine ⟨lengths, recorded_of_lengths A fun k => lengths.get_of_clean trivial (filed.1 ▸ clean), ?_, ?_, ?_⟩
  · rw [data]
    exact h.flushed
  · rw [writers, data]
    exact h.writing
  · rw [writers]
    exact h.closed

/-- a bureau without files -/
theorem new (w : Ways) : Tells w {} fun _ => {} where
  lengths := ⟨fun k _ h => by simp at h, fun k n _ h => by simp at h, fun k _ _ _ => by simp [Accounts.lengths]⟩
  recorded k := Table.get_empty _ _
  flushed k := .empty fun c => Table.get_empty _ _
  writing k x h := by cases h
  closed _ _ := rfl

/-- **Each step** stores what it comes to. -/
theorem act (h : Tells w b A) (sound : ∀ k, (A k).Sound w.width) (step : Step)
    (small : ∀ k, (A.after w.width step k).appended.length < UInt64.size) :
    Tells w (w.act step b).2 (A.after w.width step) := by
  -- a file's writer is open in the bureau just when its account says so
  have open_or (key : Key) : (∃ x, b.writers key = some x ∧ (A key).writing = true) ∨
      b.writers key = none ∧ (A key).writing = false := by
    cases now : b.writers key with
    | some x => exact .inl ⟨x, rfl, (h.writing key x now).2.1⟩
    | none => exact .inr ⟨rfl, h.closed key now⟩
  cases step with
  | start key =>
    rcases open_or key with ⟨x, now, writing⟩ | ⟨gone, closed⟩
    · simpa [Ways.act, Accounts.after, now, writing] using h
    · by_cases zero : w.width = 0
      · have refused : w.start key b = (.error (.setting .zeroWidth), b) := bind_of_error (by
          rw [Directory.startWriter, Writer.start, if_pos (show w.directory.data.width = 0 from zero)]
          rfl)
        simpa [Ways.act, Accounts.after, gone, zero, refused] using h
      · have started := h.start (sound key) gone (Nat.pos_of_ne_zero zero)
        simpa [Ways.act, Accounts.after, gone, closed, zero] using started
  | write key buf =>
    rcases open_or key with ⟨x, now, writing⟩ | ⟨gone, closed⟩
    · have acts : (w.act (.write key buf) b).2 = ((w.writer key).write buf b).2 := by simp [Ways.act, whenOpen, now]
      rw [acts]
      by_cases taken : buf = [] ∨ w.width ≤ longestBuffer
      · have after : A.after w.width (.write key buf) = A.change key (.write · buf) := by
          simp [Accounts.after, writing, taken]
        have fits := small key
        rw [after] at fits ⊢
        rw [Accounts.change_self] at fits
        exact h.write now taken fits
      · obtain ⟨some, wide⟩ := not_or.1 taken
        simpa [Accounts.after, taken] using h.write_refused (sound key) now some wide
    · simpa [Ways.act, whenOpen, Accounts.after, gone, closed] using h
  | flush key =>
    rcases open_or key with ⟨x, now, writing⟩ | ⟨gone, closed⟩
    · simpa [Ways.act, whenOpen, Accounts.after, now, writing] using h.flush now
    · simpa [Ways.act, whenOpen, Accounts.after, gone, closed] using h
  | close key =>
    rcases open_or key with ⟨x, now, writing⟩ | ⟨gone, closed⟩
    · simpa [Ways.act, whenOpen, Accounts.after, now, writing] using h.close now
    · simpa [Ways.act, whenOpen, Accounts.after, gone, closed] using h
  | sync => exact h.sync

end Tells

/-! ### Runs -/

/-- **A bureau stores what its run has come to**, as long as no file reaches 2^64 bytes. -/
theorem after_tells (w : Ways) (steps : List Step)
    (small : ∀ k, (Accounts.of w.width steps k).appended.length < UInt64.size) :
    Tells w (w.after steps {}) (Accounts.of w.width steps) := by
  induction steps using List.reverseRecOn with
  | nil => exact .new w
  | append_singleton steps step ih =>
    rw [Accounts.of_snoc] at small ⊢
    have earlier (k : Key) : (Accounts.of w.width steps k).appended.length < UInt64.size := by
      obtain ⟨more, longer, _⟩ := Accounts.after_appended w.width (Accounts.of w.width steps) step k
      have fits := small k
      rw [longer, List.length_append] at fits
      omega
    rw [Ways.after, List.foldl_append]
    exact (ih earlier).act (Accounts.of_sound w.width steps) step small

/-- **A stored length** counts no more bytes than were appended to the file, and the row of the file holds the bytes that
its own writers have flushed. These are all that the length counts, unless the file has been overtaken; then the others
are still with the writer that is open on it. -/
theorem stored_length (w : Ways) (steps : List Step)
    (small : ∀ k, (Accounts.of w.width steps k).appended.length < UInt64.size) (key : Key) (cell : Bytes)
    (found : (w.after steps {}).names.get (Catalog.lengthRow key) Catalog.lengthColumn = some cell) :
    let a := Accounts.of w.width steps key
    let b := w.after steps {}
    ∃ n, cell = Bytes.ofUInt64 (UInt64.ofNat n) ∧ n ≤ a.appended.length ∧
      a.flushed <+: a.appended ∧ Layout.Holds w.width b.data key a.flushed ∧
      (n ≤ a.flushed.length ↔ ¬ Accounts.Overtaken w.width steps key) ∧
      (Accounts.Overtaken w.width steps key → ∃ x, b.writers key = some x ∧ Draft w.width b.data key x a.appended) := by
  intro a b
  have tells := after_tells w steps small
  have sound := Accounts.of_sound w.width steps key
  have ahead := Accounts.ahead_iff w.width steps key
  rw [tells.recorded, Option.map_eq_some_iff] at found
  obtain ⟨n, recorded, rfl⟩ := found
  refine ⟨n, rfl, sound.recorded n recorded, sound.flushed, tells.flushed key, ?_, fun overtaken => ?_⟩
  · rw [← ahead, Accounts.Ahead]
    constructor
    · rintro counted ⟨m, recorded', more⟩
      obtain rfl : n = m := Option.some.inj (recorded.symm.trans recorded')
      exact absurd counted (Nat.not_le.2 more)
    · intro notAhead
      exact Nat.not_lt.1 fun more => notAhead ⟨n, recorded, more⟩
  · cases now : b.writers key with
    | some x =>
      obtain ⟨_, _, y, there, draft⟩ := tells.writing key x now
      refine ⟨x, rfl, ?_⟩
      rw [show a.appended = y from congrArg (Option.getD · []) there]
      exact draft
    | none =>
      -- a writer that is closed has flushed all bytes
      obtain ⟨m, counted, more⟩ := ahead.2 overtaken
      rw [sound.closed (tells.closed key now)] at more
      exact absurd (sound.recorded m counted) (Nat.not_le.2 more)

/-- cells may stay where they are -/
theorem cells_in_place (cells : List (Address Column)) : cells.Perm cells := .rfl

/-- a bureau that writes in the order it is given -/
def inOrder (width : Nat) : Ways :=
  ⟨width, 8, fun _ as => as, fun _ keys => keys, fun _ => cells_in_place, fun _ _ => .rfl⟩

/-- bytes that are not flushed yet are not counted by the length that another writer's flush has stored before -/
theorem stored_length_behind :
    let w := inOrder 2
    let steps : List Step := [.start "f", .start "g", .write "f" [1, 2, 3], .write "g" [9], .flush "f", .write "g" [8],
      .flush "g", .write "f" [4]]
    let a := Accounts.of w.width steps "f"
    let b := w.after steps {}
    ∃ n, Bytes.ofUInt64 3 = Bytes.ofUInt64 (UInt64.ofNat n) ∧ n ≤ a.appended.length ∧
      a.flushed <+: a.appended ∧ Layout.Holds w.width b.data "f" a.flushed ∧
      (n ≤ a.flushed.length ↔ ¬ Accounts.Overtaken w.width steps "f") ∧
      (Accounts.Overtaken w.width steps "f" → ∃ x, b.writers "f" = some x ∧ Draft w.width b.data "f" x a.appended) := by
  intro w steps
  exact stored_length w steps (fun k => Nat.lt_of_le_of_lt (Accounts.of_length_le w.width steps k) (by decide)) "f" _
    (by decide +kernel)

/-- a file is overtaken by the flush of another's writer: its length is stored, and none of its bytes -/
theorem stored_length_overtaken :
    let w := inOrder 2
    let steps : List Step := [.start "f", .start "g", .write "g" [1], .flush "f"]
    (Accounts.of w.width steps "g").appended = [1] ∧
      (w.after steps {}).names.get (Catalog.lengthRow "g") Catalog.lengthColumn = some (Bytes.ofUInt64 1) ∧
      (w.after steps {}).data.row "g" = [] := by
  decide +kernel

end Bureau

end RowFiles
