/-
Keys as pointers to rows that may be shared.

A linkage has a table of links and a table of rows, both empty at first. Steps are the calls of the linked store over
them, and its linker's: to ask where a key points, to point it elsewhere, to drop its pointer. New physical keys are drawn
by any function of those drawn or linked to before, as long as it repeats none.

`Pointers` is what a linkage stands for: a pointer for some of the keys, and a heap of rows. A step that needs the row of
a key points the key at a new one, if it points nowhere. This shows in no cell, since the new row is empty. It does show in
later steps if someone guesses the row and links to it, so a pointer is kept even where only a read has made it.

- `Pointers.Sound.lawful`: what each step does to the cells that keys see, aliases included.
- `Linkage.step_mirrors`: one step of the linkage replies as the pointers do.
- `Linkage.replies_match`: so does each run, and without links moved or dropped its calls are answered as by a plain table.
-/
import Mathlib.Logic.Function.Basic
import RowFiles.Proofs.Store.Tables
import RowFiles.Store.Linked

namespace RowFiles

/-! ## Steps -/

namespace Linkage

inductive Step where
  | call (q : Call)
  /-- asks where a key points -/
  | resolve (key : Key)
  | link (key row : Key)
  | unlink (key : Key)
deriving DecidableEq, Repr

inductive Reply where
  | call (a : Answer)
  | row (row : Key)
  | done
deriving DecidableEq, Repr

/-- the step writes no cell and moves no pointer -/
def Step.Looks : Step → Prop
  | .call (.put ..) | .call (.deleteColumn ..) | .call (.delete _) | .link .. | .unlink _ => False
  | _ => True

/-- the calls of a run -/
def calls (steps : List Step) : List Call :=
  steps.filterMap fun | .call q => some q | _ => none

/-- the answers to the calls of a run -/
def answers (replies : List Reply) : List Answer :=
  replies.filterMap fun | .call a => some a | _ => none

end Linkage

/-! ## Pointers and their heap -/

structure Pointers where
  pointer : Key → Option Key := fun _ => none
  heap : Table Column := .empty
  /-- the rows drawn or linked to so far, the latest first -/
  used : List Key := []

namespace Pointers

open Linkage

section Model

variable (m : Pointers)

/-- a cell of the row that a key points to; a key that points nowhere has an empty row -/
def cell (k : Key) (c : Column) : Option Bytes := (m.pointer k).bind (m.heap.get · c)

def hasCells (k : Key) : Bool := (m.pointer k).any m.heap.hasKey

def values (k : Key) : List Bytes := (m.pointer k).elim [] m.heap.values

/-- the key itself, and all that point to the same row -/
def Shares (k l : Key) : Prop := k = l ∨ (m.pointer k).isSome ∧ m.pointer k = m.pointer l

instance (k l : Key) : Decidable (m.Shares k l) := inferInstanceAs (Decidable (_ ∨ _))

def point (k row : Key) : Pointers := { m with pointer := Function.update m.pointer k (some row), used := row :: m.used }

def drop (k : Key) : Pointers := { m with pointer := Function.update m.pointer k none }

variable (draw : Nat → List Key → Key) (width : Nat)

/-- the row that a key points to, a new one if it has pointed nowhere, and the pointers then -/
def reach (k : Key) : Key × Pointers :=
  match m.pointer k with
  | some row => (row, m)
  | none => (draw width m.used, m.point k (draw width m.used))

/-- the row of a key is changed, as `f` changes a row of the heap -/
def onRow (k : Key) (f : Key → Table Column → Table Column) : Pointers :=
  { (m.reach draw width k).2 with heap := f (m.reach draw width k).1 (m.reach draw width k).2.heap }

/-- what a step replies, and the pointers then -/
def step : Step → Run Pointers Reply
  | .call (.put k c v), m => (.ok (.call .done), m.onRow draw width k fun row t => t.put row c v)
  | .call (.get k c), m => (.ok (.call (.cell (m.cell k c))), (m.reach draw width k).2)
  | .call (.delete k), m => (.ok (.call .done), (m.onRow draw width k fun row t => t.delete row).drop k)
  | .call (.deleteColumn k c), m => (.ok (.call .done), m.onRow draw width k fun row t => t.deleteColumn row c)
  | .call (.hasKey k), m => (.ok (.call (.flag (m.hasCells k))), (m.reach draw width k).2)
  | .call (.values k), m => (.ok (.call (.values (m.values k))), (m.reach draw width k).2)
  | .call .keys, m => (.error (.state .notEnumerable), m)
  | .call .sync, m => (.ok (.call .done), m)
  | .resolve k, m => (.ok (.row (m.reach draw width k).1), (m.reach draw width k).2)
  | .link k row, m => (.ok .done, m.point k row)
  | .unlink k, m => (.ok .done, m.drop k)

/-- the pointers after a step -/
def after (st : Step) : Pointers := (step draw width st m).2

/-- of a row, `f` changes the columns of which `P` holds, to `x`, and no other row -/
def Writes (f : Key → Table Column → Table Column) (P : Column → Prop) [DecidablePred P] (x : Option Bytes) : Prop :=
  ∀ row t r d, (f row t).get r d = if row = r ∧ P d then x else t.get r d

theorem writes_put (c : Column) (v : Bytes) : Writes (fun row t => t.put row c v) (c = ·) (some v) :=
  fun row t r d => t.get_put row r c d v

theorem writes_deleteColumn (c : Column) : Writes (fun row t => t.deleteColumn row c) (c = ·) none :=
  fun row t r d => t.get_deleteColumn row r c d

theorem writes_delete : Writes (fun row t => t.delete row) (fun _ => True) none := fun row t r d => by
  simp only [Table.get_delete, and_true]

end Model

/-! ## Cells as keys see them -/

variable {draw : Nat → List Key → Key} {width : Nat} {m : Pointers} {k row : Key}
  {f : Key → Table Column → Table Column} {P : Column → Prop} [DecidablePred P] {x : Option Bytes}

theorem pointer_point (m : Pointers) (k l row : Key) :
    (m.point k row).pointer l = if k = l then some row else m.pointer l :=
  (Function.update_apply ..).trans (if_congr eq_comm rfl rfl)

theorem pointer_drop (m : Pointers) (k l : Key) : (m.drop k).pointer l = if k = l then none else m.pointer l :=
  (Function.update_apply ..).trans (if_congr eq_comm rfl rfl)

theorem cell_drop (m : Pointers) (k l : Key) (c : Column) : (m.drop k).cell l c = if k = l then none else m.cell l c := by
  rw [cell, pointer_drop]
  split_ifs <;> rfl

theorem hasKey_eq {t : Table Column} (same : ∀ c, t.get row c = m.cell k c) : t.hasKey row = m.hasCells k := by
  rw [hasCells]
  cases pointed : m.pointer k with
  | none => exact Table.hasKey_eq_false.2 fun c => by rw [same, cell, pointed]; rfl
  | some row => exact Table.hasKey_congr fun c => by rw [same, cell, pointed]; rfl

theorem values_eq {t : Table Column} (same : ∀ c, t.get row c = m.cell k c) : t.values row = m.values k := by
  rw [values]
  cases pointed : m.pointer k with
  | none =>
    refine List.eq_nil_iff_forall_not_mem.2 fun v there => ?_
    obtain ⟨c, found⟩ := Table.mem_values.1 there
    rw [same, cell, pointed] at found
    cases found
  | some row => exact Table.values_congr fun c => by rw [same, cell, pointed]; rfl

/-! ## What a run keeps -/

/-- every row that is pointed to, or has a cell, has been drawn or linked to -/
structure Sound (m : Pointers) : Prop where
  pointed : ∀ {k row}, m.pointer k = some row → row ∈ m.used
  filled : ∀ {row c v}, m.heap.get row c = some v → row ∈ m.used

namespace Sound

theorem empty : Sound {} := ⟨nofun, fun found => by simp at found⟩

theorem point (h : m.Sound) (k row : Key) : (m.point k row).Sound where
  pointed {l r} e := by
    rw [pointer_point] at e
    split_ifs at e
    · exact Option.some.inj e ▸ List.mem_cons_self
    · exact List.mem_cons_of_mem _ (h.pointed e)
  filled e := List.mem_cons_of_mem _ (h.filled e)

theorem drop (h : m.Sound) (k : Key) : (m.drop k).Sound where
  pointed {l r} e := by
    rw [pointer_drop] at e
    split_ifs at e
    exact h.pointed e
  filled e := h.filled e

theorem reach (h : m.Sound) (k : Key) : (m.reach draw width k).2.Sound := by
  rw [Pointers.reach]
  split
  · exact h
  · exact h.point ..

end Sound

/-! ## A key gets its row -/

theorem heap_reach (m : Pointers) (k : Key) : (m.reach draw width k).2.heap = m.heap := by
  rw [reach]
  split <;> rfl

theorem pointer_reach (m : Pointers) (k l : Key) :
    (m.reach draw width k).2.pointer l = if k = l then some (m.reach draw width k).1 else m.pointer l := by
  rw [reach]
  split
  case h_1 row pointed =>
    split_ifs with here
    · exact here ▸ pointed
    · rfl
  case h_2 => exact pointer_point ..

/-- a key that points somewhere stays there -/
theorem pointer_reach_of_some {l : Key} (pointed : m.pointer l = some row) (k : Key) :
    (m.reach draw width k).2.pointer l = some row := by
  rw [pointer_reach]
  split_ifs with here
  · rw [reach, here, pointed]
  · exact pointed

section Fresh

variable (new : ∀ width used, draw width used ∉ used) (sound : m.Sound)
include new sound

/-- a new row is empty -/
theorem get_reach (k : Key) (c : Column) : m.heap.get (m.reach draw width k).1 c = m.cell k c := by
  rw [reach, cell]
  cases pointed : m.pointer k with
  | some row => rfl
  | none =>
    change m.heap.get (draw width m.used) c = none
    cases found : m.heap.get (draw width m.used) c with
    | none => rfl
    | some v => exact absurd (sound.filled found) (new _ _)

/-- **A key that gets its row shows the same cells** as before, and so do all others. -/
theorem cell_reach (k l : Key) (c : Column) : (m.reach draw width k).2.cell l c = m.cell l c := by
  rw [cell, pointer_reach, heap_reach]
  split_ifs with here
  · exact here ▸ get_reach new sound k c
  · rfl

/-- nobody else points to a new row -/
theorem pointer_reach_eq_some (k l : Key) :
    (m.reach draw width k).2.pointer l = some (m.reach draw width k).1 ↔ m.Shares k l := by
  rw [pointer_reach, Shares]
  split_ifs with here
  · exact iff_of_true rfl (.inl here)
  · rw [reach]
    cases pointed : m.pointer k with
    | some row => simp [here, eq_comm]
    | none =>
      refine iff_of_false (fun there => new _ _ (sound.pointed there)) ?_
      rintro (same | ⟨e, -⟩)
      · exact here same
      · cases e

/-- **A row that is changed is changed for all that share it.** -/
theorem cell_onRow (writes : Writes f P x) (k l : Key) (d : Column) :
    (m.onRow draw width k f).cell l d = if m.Shares k l ∧ P d then x else m.cell l d := by
  calc (m.onRow draw width k f).cell l d
    _ = if (m.reach draw width k).2.pointer l = some (m.reach draw width k).1 ∧ P d then x
        else (m.reach draw width k).2.cell l d := by
      rw [cell, cell, onRow]
      cases (m.reach draw width k).2.pointer l with
      | none => rfl
      | some r =>
        refine (writes ..).trans (if_congr (and_congr_left fun _ => ?_) rfl rfl)
        rw [Option.some_inj, eq_comm]
    _ = if m.Shares k l ∧ P d then x else m.cell l d := by
      rw [cell_reach new sound, if_congr (and_congr_left fun _ => pointer_reach_eq_some new sound k l) rfl rfl]

end Fresh

/-! ## What steps do -/

theorem Sound.onRow (h : m.Sound) (k : Key) (writes : Writes f P x) : (m.onRow draw width k f).Sound where
  pointed e := (h.reach k).pointed e
  filled {r d v} e := by
    have found := (writes ..).symm.trans e
    split_ifs at found with here
    · exact here.1 ▸ (h.reach k).pointed ((pointer_reach m k k).trans (if_pos rfl))
    · exact (h.reach k).filled found

theorem Sound.after (h : m.Sound) (draw : Nat → List Key → Key) (width : Nat) (st : Step) :
    (m.after draw width st).Sound := by
  cases st with
  | call q =>
    cases q with
    | put k c v => exact h.onRow k (writes_put c v)
    | delete k => exact (h.onRow k writes_delete).drop k
    | deleteColumn k c => exact h.onRow k (writes_deleteColumn c)
    | get k | hasKey k | values k => exact h.reach k
    | keys | sync => exact h
  | resolve k => exact h.reach k
  | link k row => exact h.point k row
  | unlink k => exact h.drop k

theorem Sound.stepped {st : Step} {r : Except Error Reply} {m' : Pointers} (h : m.Sound)
    (ran : step draw width st m = (r, m')) : m'.Sound := by
  have kept := h.after draw width st
  rwa [Pointers.after, ran] at kept

/-- what each step does to the cells that keys see -/
structure Lawful (draw : Nat → List Key → Key) (width : Nat) (m : Pointers) : Prop where
  /-- a look changes none -/
  looks : ∀ st, st.Looks → ∀ l d, (m.after draw width st).cell l d = m.cell l d
  /-- a cell that is put shows to all that share the row -/
  put : ∀ k c v l d,
    (m.after draw width (.call (.put k c v))).cell l d = if m.Shares k l ∧ c = d then some v else m.cell l d
  deleteColumn : ∀ k c l d,
    (m.after draw width (.call (.deleteColumn k c))).cell l d = if m.Shares k l ∧ c = d then none else m.cell l d
  /-- the row is emptied for all that share it -/
  delete : ∀ k l d, (m.after draw width (.call (.delete k))).cell l d = if m.Shares k l then none else m.cell l d
  /-- and only the one key loses its pointer -/
  delete_pointer : ∀ k l, (m.after draw width (.call (.delete k))).pointer l = if k = l then none else m.pointer l
  /-- a link moves one pointer and no cell -/
  link : ∀ k row l, (m.after draw width (.link k row)).pointer l = if k = l then some row else m.pointer l
  link_heap : ∀ k row, (m.after draw width (.link k row)).heap = m.heap
  /-- one pointer is dropped, and its row left -/
  unlink : ∀ k l, (m.after draw width (.unlink k)).pointer l = if k = l then none else m.pointer l
  unlink_heap : ∀ k, (m.after draw width (.unlink k)).heap = m.heap
  /-- a pointer is moved and dropped by steps on its own key only -/
  stays : ∀ st l row, m.pointer l = some row → st ≠ .call (.delete l) → (∀ r, st ≠ .link l r) → st ≠ .unlink l →
    (m.after draw width st).pointer l = some row

theorem Sound.lawful (sound : m.Sound) (new : ∀ width used, draw width used ∉ used) : m.Lawful draw width where
  looks st looks l d := by
    cases st with
    | call q =>
      cases q with
      | get k | hasKey k | values k => exact cell_reach new sound k l d
      | keys | sync => rfl
      | put | delete | deleteColumn => exact looks.elim
    | resolve k => exact cell_reach new sound k l d
    | link | unlink => exact looks.elim
  put k c v l d := cell_onRow new sound (writes_put c v) k l d
  deleteColumn k c l d := cell_onRow new sound (writes_deleteColumn c) k l d
  delete k l d := by
    refine (cell_drop ..).trans ?_
    rw [cell_onRow new sound writes_delete]
    simp only [and_true]
    split_ifs with here shared
    · rfl
    · exact absurd (.inl here) shared
    · rfl
    · rfl
  delete_pointer k l := by
    refine (pointer_drop ..).trans ?_
    change (if k = l then none else (m.reach draw width k).2.pointer l) = _
    rw [pointer_reach]
    split_ifs <;> rfl
  link k row l := pointer_point ..
  link_heap k row := rfl
  unlink k l := pointer_drop ..
  unlink_heap k := rfl
  stays st l row pointed undeleted unlinked undropped := by
    have reached (k : Key) : (m.reach draw width k).2.pointer l = some row := pointer_reach_of_some pointed k
    cases st with
    | call q =>
      cases q with
      | delete k =>
        have other : k ≠ l := fun e => undeleted (e ▸ rfl)
        exact (pointer_drop ..).trans ((if_neg other).trans (reached k))
      | put k | get k | deleteColumn k | hasKey k | values k => exact reached k
      | keys | sync => exact pointed
    | resolve k => exact reached k
    | link k r =>
      have other : k ≠ l := fun e => unlinked r (e ▸ rfl)
      exact (pointer_point ..).trans ((if_neg other).trans pointed)
    | unlink k =>
      have other : k ≠ l := fun e => undropped (e ▸ rfl)
      exact (pointer_drop ..).trans ((if_neg other).trans pointed)

/-! ## Without links moved or dropped -/

/-- the pointers stand for a plain table: every key sees its row, and shares it with nobody -/
structure Stands (m : Pointers) (t : Table Column) : Prop where
  cells : ∀ k c, t.get k c = m.cell k c
  apart : ∀ {k l row}, m.pointer k = some row → m.pointer l = some row → k = l

namespace Stands

variable {t : Table Column}

theorem empty : Stands {} .empty := ⟨fun k c => by simp [cell], nofun⟩

theorem shares_iff (h : m.Stands t) : m.Shares k l ↔ k = l := by
  refine ⟨?_, .inl⟩
  rintro (same | ⟨there, same⟩)
  · exact same
  · obtain ⟨row, pointed⟩ := Option.isSome_iff_exists.1 there
    exact h.apart pointed (same ▸ pointed)

section Fresh

variable (new : ∀ width used, draw width used ∉ used) (sound : m.Sound)
include new sound

/-- a key that gets its row shares it with nobody -/
theorem reach (h : m.Stands t) (k : Key) : (m.reach draw width k).2.Stands t where
  cells l c := (h.cells l c).trans (cell_reach new sound k l c).symm
  apart {l l' row} e e' := by
    have own {l : Key} (e : (m.reach draw width k).2.pointer l = some (m.reach draw width k).1) : k = l :=
      h.shares_iff.1 ((pointer_reach_eq_some new sound k l).1 e)
    have known {l : Key} (here : k ≠ l) : (m.reach draw width k).2.pointer l = m.pointer l := by
      rw [pointer_reach, if_neg here]
    have new_row : (m.reach draw width k).2.pointer k = some (m.reach draw width k).1 := by
      rw [pointer_reach, if_pos rfl]
    by_cases here : k = l
    · subst here
      exact own (e'.trans (e.symm.trans new_row))
    · by_cases here' : k = l'
      · subst here'
        exact (own (e.trans (e'.symm.trans new_row))).symm
      · exact h.apart ((known here).symm.trans e) ((known here').symm.trans e')

/-- the row of a key is changed in the heap as in the table -/
theorem onRow (h : m.Stands t) (k : Key) (writes : Writes f P x) : (m.onRow draw width k f).Stands (f k t) where
  cells l d := by
    rw [cell_onRow new sound writes, writes, h.cells, if_congr (and_congr_left fun _ => h.shares_iff) rfl rfl]
  apart e e' := (h.reach new sound k).apart e e'

end Fresh

/-- a key whose row is empty may lose its pointer -/
theorem drop (h : m.Stands t) (empty : ∀ c, t.get k c = none) : (m.drop k).Stands t where
  cells l c := by
    rw [cell_drop]
    split_ifs with here
    · exact here ▸ empty c
    · exact h.cells l c
  apart {l l' row} e e' := by
    rw [pointer_drop] at e e'
    split_ifs at e e'
    exact h.apart e e'

/-- **Calls are answered as by the plain table.** -/
theorem call (h : m.Stands t) (new : ∀ width used, draw width used ∉ used) (sound : m.Sound) (plain : Nat) {q : Call}
    (unlisted : q ≠ .keys) :
    ∃ a m' u, step draw width (.call q) m = (.ok (.call a), m') ∧ (Table.plainRows plain).call q t = (.ok a, u) ∧
      m'.Stands u := by
  cases q with
  | put k c v => exact ⟨.done, _, _, rfl, rfl, h.onRow new sound k (writes_put c v)⟩
  | get k c =>
    refine ⟨.cell (m.cell k c), _, t, rfl, ?_, h.reach new sound k⟩
    rw [← h.cells]
    rfl
  | delete k =>
    refine ⟨.done, _, _, rfl, Table.plainRows_delete .., (h.onRow new sound k writes_delete).drop fun c => ?_⟩
    rw [Table.get_delete, if_pos rfl]
  | deleteColumn k c => exact ⟨.done, _, _, rfl, rfl, h.onRow new sound k (writes_deleteColumn c)⟩
  | hasKey k =>
    refine ⟨.flag (m.hasCells k), _, t, rfl, ?_, h.reach new sound k⟩
    rw [← hasKey_eq (h.cells k)]
    exact Table.plainRows_hasKey ..
  | values k =>
    refine ⟨.values (m.values k), _, t, rfl, ?_, h.reach new sound k⟩
    rw [← values_eq (h.cells k)]
    exact Table.plainRows_values ..
  | keys => exact absurd rfl unlisted
  | sync => exact ⟨.done, m, t, rfl, rfl, h⟩

/-- run after run, as long as no link is moved or dropped -/
theorem run (h : m.Stands t) (new : ∀ width used, draw width used ∉ used) (sound : m.Sound) (plain : Nat)
    (steps : List Step) (unlisted : .call .keys ∉ steps) (unmoved : ∀ k row, .link k row ∉ steps)
    (undropped : ∀ k, .unlink k ∉ steps) :
    ∃ replies m' u, steps.mapM (step draw width) m = (.ok replies, m') ∧
      (calls steps).mapM (Table.plainRows plain).call t = (.ok (answers replies), u) := by
  induction steps generalizing m t with
  | nil => exact ⟨[], m, t, rfl, rfl⟩
  | cons st steps ih =>
    have later {m' : Pointers} {u : Table Column} (h' : m'.Stands u) (sound' : m'.Sound) :=
      ih h' sound' (fun there => unlisted (List.mem_cons_of_mem _ there))
        (fun k row there => unmoved k row (List.mem_cons_of_mem _ there))
        fun k there => undropped k (List.mem_cons_of_mem _ there)
    cases st with
    | call q =>
      have now : q ≠ .keys := by
        rintro rfl
        exact unlisted List.mem_cons_self
      obtain ⟨a, m', u, stepped, called, h'⟩ := h.call new sound plain now
      obtain ⟨replies, m'', w, ran, answered⟩ := later h' (sound.stepped stepped)
      refine ⟨.call a :: replies, m'', w, ?_, ?_⟩
      · rw [List.mapM_cons, Run.bind_of_ok stepped, Run.bind_of_ok ran, Run.pure_apply]
      · change (q :: calls steps).mapM (Table.plainRows plain).call t = (.ok (a :: answers replies), w)
        rw [List.mapM_cons, Run.bind_of_ok called, Run.bind_of_ok answered, Run.pure_apply]
    | resolve k =>
      obtain ⟨replies, m'', w, ran, answered⟩ := later (h.reach new sound k) (sound.reach k)
      refine ⟨.row (m.reach draw width k).1 :: replies, m'', w, ?_, answered⟩
      have stepped :
          step draw width (.resolve k) m = (.ok (.row (m.reach draw width k).1), (m.reach draw width k).2) := rfl
      rw [List.mapM_cons, Run.bind_of_ok stepped, Run.bind_of_ok ran, Run.pure_apply]
    | link k row => exact absurd List.mem_cons_self (unmoved k row)
    | unlink k => exact absurd List.mem_cons_self (undropped k)

end Stands

end Pointers

/-! ## Linkages -/

structure Linkage where
  links : Table Column := .empty
  heap : Table Column := .empty
  /-- the physical keys drawn or linked to so far, the latest first -/
  used : List Key := []

namespace Linkage

open Run

section Program

variable (draw : Nat → List Key → Key) (linkWidth width : Nat)

/-- remembers for later draws that a physical key has been linked to -/
def note (row : Key) : Run Linkage Unit := fun p => (.ok (), { p with used := row :: p.used })

/-- the table that holds the rows -/
def heapPart : Part (Run Linkage) (Table Column) := part Linkage.heap fun t p => { p with heap := t }

def linked : LinkTable (Run Linkage) where
  links := Table.rows (part Linkage.links fun t p => { p with links := t }) linkWidth
  freshKey w := fun p => (.ok (draw w p.used), { p with used := draw w p.used :: p.used })

def rows : Rows (Run Linkage) :=
  (linked draw linkWidth).rows (Table.rows heapPart width)

/-- what runs for a step -/
def act : Step → Run Linkage Reply
  | .call q => .call <$> (rows draw linkWidth width).call q
  | .resolve k => .row <$> (linked draw linkWidth).linker.resolve k
  | .link k row => do
    note row
    (linked draw linkWidth).linker.link k row
    pure .done
  | .unlink k => do
    (linked draw linkWidth).linker.unlink k
    pure .done

end Program

/-- a linkage stands for pointers: its links are their texts -/
structure Mirrors (p : Linkage) (m : Pointers) : Prop where
  links : ∀ k, p.links.get k LinkTable.linkColumn = (m.pointer k).map Utf8.encode
  heap : p.heap = m.heap
  used : p.used = m.used

theorem Mirrors.empty : Mirrors {} {} := ⟨fun _ => Table.get_empty .., rfl, rfl⟩

section Mirrors

variable (draw : Nat → List Key → Key) (linkWidth : Nat)

theorem lookup_mirrors (m : Pointers) (k : Key) :
    Yields Mirrors ((linked draw linkWidth).lookup k) m fun row w => row = m.pointer k ∧ w = m := by
  have got : Yields Mirrors ((linked draw linkWidth).links.get k LinkTable.linkColumn) m fun cell w =>
      cell = (m.pointer k).map Utf8.encode ∧ w = m := fun p hp => ⟨m, hp, _, rfl, hp.links k, rfl⟩
  refine got.next ?_
  cases m.pointer k with
  | none => exact yields_pure _ ⟨rfl, rfl⟩
  | some row =>
    simp only [Option.map_some, Utf8.decode_encode]
    exact yields_pure _ ⟨rfl, rfl⟩

theorem link_mirrors (m : Pointers) (k row : Key) :
    Yields Mirrors ((linked draw linkWidth).link k row) { m with used := row :: m.used } fun _ w => w = m.point k row := by
  refine fun p hp => ⟨m.point k row, ⟨fun l => ?_, hp.heap, hp.used⟩, (), rfl, rfl⟩
  change (p.links.put k LinkTable.linkColumn (Utf8.encode row)).get l LinkTable.linkColumn = _
  rw [Table.get_put, Pointers.pointer_point, hp.links]
  simp only [and_true]
  split_ifs <;> rfl

theorem unlink_mirrors (m : Pointers) (k : Key) :
    Yields Mirrors ((linked draw linkWidth).unlink k) m fun _ w => w = m.drop k := by
  have cleared : (linked draw linkWidth).unlink k = (linked draw linkWidth).links.delete k := rfl
  rw [cleared, linked, Table.rows_delete]
  refine fun p hp => ⟨m.drop k, ⟨fun l => ?_, hp.heap, hp.used⟩, (), rfl, rfl⟩
  change (p.links.delete k).get l LinkTable.linkColumn = _
  rw [Table.get_delete, Pointers.pointer_drop, hp.links]
  split_ifs <;> rfl

theorem resolve_mirrors (m : Pointers) (k : Key) :
    Yields Mirrors ((linked draw linkWidth).resolve k) m fun row w =>
      row = (m.reach draw linkWidth k).1 ∧ w = (m.reach draw linkWidth k).2 := by
  rw [Pointers.reach]
  refine (lookup_mirrors draw linkWidth m k).next ?_
  cases pointed : m.pointer k with
  | some row => exact yields_pure _ ⟨rfl, rfl⟩
  | none =>
    refine (lookup_mirrors draw linkWidth m k).next ?_
    rw [pointed]
    have drawn : Yields Mirrors ((linked draw linkWidth).freshKey linkWidth) m fun row w =>
        row = draw linkWidth m.used ∧ w = { m with used := draw linkWidth m.used :: m.used } := fun p hp => by
      refine ⟨{ m with used := draw linkWidth m.used :: m.used }, ⟨hp.links, hp.heap, ?_⟩, draw linkWidth m.used, ?_, rfl,
        rfl⟩
      · rw [← hp.used]
        rfl
      · rw [← hp.used]
        rfl
    exact drawn.next ((link_mirrors draw linkWidth _ k _).step (yields_pure _ ⟨rfl, rfl⟩))

/-- the row of a key is changed in the heap -/
theorem onRow_mirrors (f : Key → Table Column → Table Column) (m : Pointers) (k : Key) :
    Yields Mirrors (do heapPart.modify (f (← (linked draw linkWidth).resolve k))) m fun _ w =>
      w = m.onRow draw linkWidth k f :=
  (resolve_mirrors draw linkWidth m k).next fun _ hp =>
    ⟨m.onRow draw linkWidth k f, ⟨hp.links, congrArg (f _) hp.heap, hp.used⟩, (), rfl, rfl⟩

/-- the row of a key is looked at -/
theorem reach_mirrors {α : Type} (g : Key → Table Column → α) (m : Pointers) (k : Key) :
    Yields Mirrors (do g (← (linked draw linkWidth).resolve k) <$> heapPart.read) m fun a w =>
      a = g (m.reach draw linkWidth k).1 m.heap ∧ w = (m.reach draw linkWidth k).2 :=
  (resolve_mirrors draw linkWidth m k).next fun p hp =>
    ⟨_, hp, g _ p.heap, rfl, congrArg (g _) (hp.heap.trans (m.heap_reach k)), rfl⟩

end Mirrors

variable {draw : Nat → List Key → Key} {linkWidth : Nat} (width : Nat) {m : Pointers}

/-- **One step replies as the pointers do.** -/
theorem step_mirrors (new : ∀ width used, draw width used ∉ used) (sound : m.Sound) {st : Step}
    (unlisted : st ≠ .call .keys) :
    ∃ r m', Pointers.step draw linkWidth st m = (.ok r, m') ∧
      Yields Mirrors (act draw linkWidth width st) m fun b w => b = r ∧ w = m' := by
  have seen (k : Key) (c : Column) : m.heap.get (m.reach draw linkWidth k).1 c = m.cell k c :=
    Pointers.get_reach new sound k c
  cases st with
  | call q =>
    cases q with
    | put k c v =>
      have changed := onRow_mirrors draw linkWidth (fun row t => t.put row c v) m k
      exact ⟨_, _, rfl, .map (changed.step (yields_pure _ ⟨rfl, rfl⟩))⟩
    | get k c =>
      have looked := reach_mirrors draw linkWidth (fun row t => t.get row c) m k
      exact ⟨_, _, rfl, .map (.map (looked.mono fun a w told => ⟨by rw [told.1, seen], told.2⟩))⟩
    | delete k =>
      have emptied : Yields Mirrors ((rows draw linkWidth width).delete k) m fun _ w =>
          w = (m.onRow draw linkWidth k fun row t => t.delete row).drop k := by
        have changed := (onRow_mirrors draw linkWidth (fun row t => t.delete row) m k).step
          (f := fun _ => (linked draw linkWidth).unlink k) (unlink_mirrors draw linkWidth _ k)
        have walked : (rows draw linkWidth width).delete k = _ :=
          bind_congr fun row => congrArg (· >>= fun _ => _) (Table.rows_delete heapPart width row)
        rwa [bind_assoc, ← walked] at changed
      exact ⟨_, _, rfl, .map (emptied.step (yields_pure _ ⟨rfl, rfl⟩))⟩
    | deleteColumn k c =>
      have changed := onRow_mirrors draw linkWidth (fun row t => t.deleteColumn row c) m k
      exact ⟨_, _, rfl, .map (changed.step (yields_pure _ ⟨rfl, rfl⟩))⟩
    | hasKey k =>
      have looked := reach_mirrors draw linkWidth (fun row t => t.hasKey row) m k
      have walked : (rows draw linkWidth width).hasKey k = _ := bind_congr fun row => Table.rows_hasKey heapPart width row
      rw [← walked] at looked
      refine ⟨_, _, rfl, .map (.map (looked.mono fun a w told => ⟨?_, told.2⟩))⟩
      rw [told.1, Pointers.hasKey_eq (seen k)]
    | values k =>
      have looked := reach_mirrors draw linkWidth (fun row t => t.values row) m k
      have walked : (rows draw linkWidth width).values k = _ := bind_congr fun row => Table.rows_values heapPart width row
      rw [← walked] at looked
      refine ⟨_, _, rfl, .map (.map (looked.mono fun a w told => ⟨?_, told.2⟩))⟩
      rw [told.1, Pointers.values_eq (seen k)]
    | keys => exact absurd rfl unlisted
    | sync => exact ⟨_, _, rfl, .map (yields_pure _ ⟨rfl, rfl⟩)⟩
  | resolve k =>
    refine ⟨_, _, rfl, .map ((resolve_mirrors draw linkWidth m k).mono fun row w told => ⟨?_, told.2⟩)⟩
    rw [told.1]
  | link k row =>
    have noted : Yields Mirrors (note row) m fun _ w => w = { m with used := row :: m.used } := fun p hp =>
      ⟨{ m with used := row :: m.used }, ⟨hp.links, hp.heap, congrArg (row :: ·) hp.used⟩, (), rfl, rfl⟩
    exact ⟨_, _, rfl, noted.step ((link_mirrors draw linkWidth m k row).step (yields_pure _ ⟨rfl, rfl⟩))⟩
  | unlink k => exact ⟨_, _, rfl, (unlink_mirrors draw linkWidth m k).step (yields_pure _ ⟨rfl, rfl⟩)⟩

/-- run after run -/
theorem run_mirrors (new : ∀ width used, draw width used ∉ used) (sound : m.Sound) (steps : List Step)
    (unlisted : .call .keys ∉ steps) :
    ∃ replies m', steps.mapM (Pointers.step draw linkWidth) m = (.ok replies, m') ∧ m'.Sound ∧
      Yields Mirrors (steps.mapM (act draw linkWidth width)) m fun bs w => bs = replies ∧ w = m' := by
  induction steps generalizing m with
  | nil => exact ⟨[], m, rfl, sound, yields_pure [] ⟨rfl, rfl⟩⟩
  | cons st steps ih =>
    have now : st ≠ .call .keys := by
      rintro rfl
      exact unlisted List.mem_cons_self
    obtain ⟨r, m', stepped, told⟩ := step_mirrors width new sound now
    obtain ⟨replies, m'', ran, sound', toldRest⟩ :=
      ih (sound.stepped stepped) fun there => unlisted (List.mem_cons_of_mem _ there)
    refine ⟨r :: replies, m'', ?_, sound', ?_⟩
    · rw [List.mapM_cons, bind_of_ok stepped, bind_of_ok ran, pure_apply]
    · rw [List.mapM_cons]
      exact told.next (toldRest.next (yields_pure _ ⟨rfl, rfl⟩))

/-- **A linked store is pointers to rows.** Every run ends well, with the replies of the pointers. What its steps do to the
cells that keys see, aliases included, is `Pointers.Lawful`. As long as no link is moved or dropped, all calls are answered
as by a plain table. -/
theorem replies_match (draw : Nat → List Key → Key) (new : ∀ width used, draw width used ∉ used) (linkWidth width : Nat)
    (steps : List Step) (unlisted : .call .keys ∉ steps) :
    ∃ replies p m, steps.mapM (act draw linkWidth width) {} = (.ok replies, p) ∧
      steps.mapM (Pointers.step draw linkWidth) {} = (.ok replies, m) ∧ Mirrors p m ∧ m.Lawful draw linkWidth ∧
      ((∀ k row, .link k row ∉ steps) → (∀ k, .unlink k ∉ steps) →
        ∃ t, (calls steps).mapM (Table.plainRows width).call .empty = (.ok (answers replies), t)) := by
  obtain ⟨replies, m, modelled, sound, told⟩ := run_mirrors width new .empty steps unlisted
  obtain ⟨_, p, _, ran, mirrors, rfl, rfl⟩ := told.run Mirrors.empty
  refine ⟨_, p, _, ran, modelled, mirrors, sound.lawful new, fun unmoved undropped => ?_⟩
  obtain ⟨_, _, t, plain, answered⟩ := Pointers.Stands.empty.run new .empty width steps unlisted unmoved undropped
  rw [modelled] at plain
  cases plain
  exact ⟨t, answered⟩

/-- draws a key of one letter that is not used; if there is none, a key longer than all that are -/
def spare (width : Nat) (used : List Key) : Key :=
  (("abcdefgh".toList.map fun c => String.ofList (List.replicate width c)).find? (· ∉ used)).getD
    ("a" ++ used.foldr (· ++ ·) "")

theorem spare_new (width : Nat) (used : List Key) : spare width used ∉ used := by
  have bounded : ∀ row ∈ used, row.length ≤ (used.foldr (· ++ ·) "").length := by
    induction used with
    | nil => nofun
    | cons first rest ih =>
      intro row there
      rw [List.foldr_cons, String.length_append]
      rcases List.mem_cons.1 there with rfl | there
      · exact Nat.le_add_right ..
      · exact Nat.le_add_left_of_le (ih row there)
  rw [spare]
  cases found : ("abcdefgh".toList.map fun c => String.ofList (List.replicate width c)).find? (· ∉ used) with
  | some row => simpa using List.find?_some found
  | none =>
    intro there
    have short := bounded _ there
    rw [Option.getD_none, String.length_append] at short
    exact Nat.not_succ_le_self _ (Nat.add_comm 1 _ ▸ short)

/-- `y` is linked to the row of `x`, whose delete empties the row for both and leaves `y` linked; `w` is linked to a row
that only a look at `z` has drawn, and both see what is put there. In a second run nothing is linked. -/
theorem replies_match_aliased :
    let steps : List Step := [.call (.put "x" 0 [1]), .resolve "x", .link "y" "aa", .call (.put "y" 1 [2]),
      .call (.hasKey "z"), .call (.values "x"), .call (.delete "x"), .call (.values "y"), .resolve "y", .resolve "x",
      .unlink "y", .link "w" "bb", .call (.put "w" 0 [3]), .call (.get "z" 0)]
    let still : List Step := [.call (.get "x" 0), .call (.put "x" 0 [1]), .resolve "x", .call (.delete "x"),
      .call (.hasKey "x"), .call (.put "x" 2 [4]), .call (.values "x")]
    (∀ width used, spare width used ∉ used) ∧ .call .keys ∉ steps ∧ .call .keys ∉ still ∧
      (steps.mapM (act spare 2 4) {}).1 = .ok [.call .done, .row "aa", .done, .call .done, .call (.flag false),
        .call (.values [[1], [2]]), .call .done, .call (.values []), .row "aa", .row "cc", .done, .done, .call .done,
        .call (.cell (some [3]))] ∧
      (∃ replies p m, steps.mapM (act spare 2 4) {} = (.ok replies, p) ∧
        steps.mapM (Pointers.step spare 2) {} = (.ok replies, m) ∧ Mirrors p m ∧ m.Lawful spare 2 ∧
        ((∀ k row, .link k row ∉ steps) → (∀ k, .unlink k ∉ steps) →
          ∃ t, (calls steps).mapM (Table.plainRows 4).call .empty = (.ok (answers replies), t))) ∧
      ∃ replies p t, still.mapM (act spare 2 4) {} = (.ok replies, p) ∧
        (calls still).mapM (Table.plainRows 4).call .empty = (.ok (answers replies), t) := by
  intro steps still
  refine ⟨spare_new, by decide, by decide, by decide +kernel, replies_match spare spare_new 2 4 steps (by decide), ?_⟩
  obtain ⟨replies, p, _, ran, _, _, _, plain⟩ := replies_match spare spare_new 2 4 still (by decide)
  obtain ⟨t, answered⟩ := plain (by simp [still]) (by simp [still])
  exact ⟨replies, p, t, ran, answered⟩

end Linkage

end RowFiles
