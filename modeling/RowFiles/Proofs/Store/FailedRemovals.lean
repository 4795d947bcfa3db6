/-
What a removal leaves that fails beneath a write-back cache.

The table of a host refuses any calls it likes, each without effect. A cache that is asked to remove a row or a cell first
forgets it, with its marks, and then asks the table. If the table refuses, the cells are what the table has of them: writes
to them that waited in the cache are lost, and nothing else is.

- `Coherent.forgets`: a cache that has forgotten cells stands for the plain table with these cells taken back from the
  table beneath.
- `Cache.Laws.removal`: a removal either ends well, or leaves just that.
- `act_stands`, `after_quiet`: whatever the table refuses, a host stands for some plain table, which calls that put and
  remove nothing keep.
- `failed_removal_drops_pending`: so after a removal that fails, gets answer as before it except in cells it was to remove
  and that waited to be written, and a later flush that ends well writes all others that waited.
-/
import RowFiles.Proofs.Store.Removals
import RowFiles.Proofs.Store.Whims

namespace RowFiles

open Run

/-! ## What a call is to remove -/

/-- the table with some cells as another table has them -/
def Table.takeBack (p b : Table Column) (out : Address Column → Bool) : Table Column :=
  ⟨(p.cells.filter fun a _ => !out a) ∪ b.cells.filter fun a _ => out a⟩

theorem Table.get_takeBack (p b : Table Column) (out : Address Column → Bool) (a : Address Column) :
    (p.takeBack b out).get a.key a.column = if out a then b.get a.key a.column else p.get a.key a.column := by
  have filtered (t : Table Column) (keep : Address Column → Bool) :
      (t.cells.filter fun a _ => keep a)[a]? = if keep a then t.get a.key a.column else none := by
    rw [Std.ExtTreeMap.getElem?_filter', get]
    cases t.cells[a]? <;> simp [Option.filter]
  rw [takeBack, get, Std.ExtTreeMap.getElem?_union, filtered, filtered]
  cases out a <;> simp

namespace Call

/-- the cells that a call is to remove -/
def removes : Call → Address Column → Bool
  | .delete k, a => a.key = k
  | .deleteColumn k col, a => a = ⟨k, col⟩
  | _, _ => false

/-- the call is to remove cells -/
def Removal : Call → Prop
  | .delete _ | .deleteColumn .. => True
  | .put .. | .get .. | .hasKey _ | .values _ | .keys | .sync => False

end Call

/-- what a cache holds once it has forgotten what a call is to remove -/
def CacheState.forgets (x : CacheState) : Call → CacheState
  | .delete k => x.forgetRow k
  | .deleteColumn k col =>
    if x.isLastInRow ⟨k, col⟩ then (x.forgetCell ⟨k, col⟩).unmarkRow k else (x.forgetCell ⟨k, col⟩).unmark ⟨k, col⟩
  | _ => x

namespace Coherent

variable {x y : CacheState} {b p : Table Column}

/-- cells that are forgotten with their marks are as the table beneath has them -/
theorem takeBack (h : Coherent [] x b p) (out : Address Column → Bool)
    (cells : ∀ a, y.value? a = if out a then none else x.value? a)
    (marks : ∀ a, a ∈ y.marks ↔ a ∈ x.marks ∧ out a = false) : Coherent [] y b (p.takeBack b out) := by
  refine ⟨fun a ha => ?_, fun a v found => ?_, fun a clean _ => ?_⟩
  · obtain ⟨marked, stays⟩ := (marks a).1 (ha.resolve_right List.not_mem_nil)
    rw [cells, stays]
    exact h.kept a (.inl marked)
  · rw [cells] at found
    split_ifs at found with gone
    rw [Table.get_takeBack, if_neg gone]
    exact h.shadow a v found
  · rw [Table.get_takeBack]
    split_ifs with gone
    · rfl
    · refine h.clean a (fun marked => clean ?_) List.not_mem_nil
      exact (marks a).2 ⟨marked, Bool.eq_false_iff.2 gone⟩

theorem forgets (h : Coherent [] x b p) {q : Call} (removal : q.Removal) :
    Coherent [] (x.forgets q) b (p.takeBack b q.removes) := by
  cases q with
  | delete k =>
    apply h.takeBack
    · intro a
      have cell : (x.forgets (.delete k)).value? a = if a.key = k then none else x.value? a := x.value?_forgetRow k a
      simpa [Call.removes] using cell
    · intro a
      have marks : a ∈ (x.forgets (.delete k)).marks ↔ a ∈ x.marks ∧ a.key ≠ k := CacheState.mem_marks_unmarkRow _ k a
      simpa [Call.removes] using marks
  | deleteColumn k col =>
    rw [CacheState.forgets]
    split_ifs with last
    · apply h.takeBack
      · intro a
        have cell : ((x.forgetCell ⟨k, col⟩).unmarkRow k).value? a = if ⟨k, col⟩ = a then none else x.value? a :=
          x.value?_forgetCell _ a
        simpa [Call.removes, eq_comm] using cell
      · intro a
        have marks : a ∈ ((x.forgetCell ⟨k, col⟩).unmarkRow k).marks ↔ a ∈ x.marks ∧ a.key ≠ k :=
          CacheState.mem_marks_unmarkRow _ k a
        rw [marks]
        refine and_congr_right fun marked => ?_
        -- a marked cell is cached, and no other cell of the row is
        have only (here : a.key = k) : a = ⟨k, col⟩ := by
          subst here
          obtain ⟨u, found⟩ := h.kept a (.inl marked)
          exact Address.eq_iff.2 ⟨rfl, x.eq_of_isLastInRow last found⟩
        have there : a.key ≠ k ↔ a ≠ ⟨k, col⟩ := not_congr ⟨only, fun e => e ▸ rfl⟩
        simpa [Call.removes] using there
    · apply h.takeBack
      · intro a
        have cell : ((x.forgetCell ⟨k, col⟩).unmark ⟨k, col⟩).value? a = if ⟨k, col⟩ = a then none else x.value? a :=
          x.value?_forgetCell _ a
        simpa [Call.removes, eq_comm] using cell
      · intro a
        have marks : a ∈ ((x.forgetCell ⟨k, col⟩).unmark ⟨k, col⟩).marks ↔ ⟨k, col⟩ ≠ a ∧ a ∈ x.marks := by
          simp [CacheState.unmark, CacheState.forgetCell]
        simpa [Call.removes, and_comm, eq_comm] using marks
  | put | get | hasKey | values | keys | sync => exact removal.elim

end Coherent

namespace Cache.Laws

variable {σ ρ : Type} {c : Cache (Run σ)} {R : σ → Layer CacheState ρ → Prop} {scan : List Bytes → List Bytes → Prop}
  {failing : Call → Prop} {v : Layer CacheState ρ} {p : Table Column} {r : ρ}

/-- **A removal** ends well and leaves what stands for some plain table, or fails once the cache has forgotten what was to
be removed. -/
theorem removal (laws : c.Laws R scan failing) (trims : ∀ x r, c.inner.Trims (fun s t => R s ⟨x, t, r⟩) failing)
    (h : v.StandsFor p r) {q : Call} (removal : q.Removal) :
    Ends R (c.rows.call q) v fun o w => (o = .ok .done ∧ ∃ p', w.StandsFor p' r) ∨
      (∃ e, o = .error e) ∧ w = { v with held := v.held.forgets q } := by
  cases q with
  | delete k =>
    have asks : Ends R (c.delete k) v fun o w => (o = .ok () ∧ w.StandsFor (p.delete k) r) ∨
        (∃ e, o = .error e) ∧ w = { v with held := v.held.forgetRow k } := by
      refine (laws.modify _ v).step ?_
      refine Ends.mono (Layered.beneath ((laws.inner _ _).delete k _)) fun o w hw => ?_
      rcases hw with ⟨_, rfl, _, rfl, rfl⟩ | ⟨_, failed, rfl⟩
      · exact .inl ⟨rfl, h.coherent.forgetRow k, h.rest⟩
      · exact .inr ⟨failed, rfl⟩
    refine Ends.bind (Ends.mono asks fun o w hw => ?_)
    rcases hw with ⟨rfl, stands⟩ | ⟨⟨e, rfl⟩, left⟩
    · exact .inl ⟨(), rfl, ends_pure _ (.inl ⟨rfl, _, stands⟩)⟩
    · exact .inr ⟨e, rfl, .inr ⟨⟨e, rfl⟩, left⟩⟩
  | deleteColumn k col =>
    have asks : Ends R (c.deleteColumn k col) v fun o w => (o = .ok () ∧ ∃ p', w.StandsFor p' r) ∨
        (∃ e, o = .error e) ∧ w = { v with held := v.held.forgets (.deleteColumn k col) } := by
      refine (laws.read v).next ?_
      refine (laws.write _ _).step ?_
      rw [CacheState.forgets]
      split_ifs with last
      · refine (laws.modify _ _).step ?_
        refine Ends.mono (Layered.beneath ((laws.inner _ _).delete k _)) fun o w hw => ?_
        rcases hw with ⟨_, rfl, _, rfl, rfl⟩ | ⟨_, failed, rfl⟩
        · exact .inl ⟨rfl, _, h.coherent.forgetLast last, h.rest⟩
        · exact .inr ⟨failed, rfl⟩
      · refine (laws.modify _ _).step ?_
        refine Ends.mono (Layered.beneath (trims _ _ k col _)) fun o w hw => ?_
        rcases hw with ⟨_, rfl, _, rfl, rfl⟩ | ⟨_, failed, rfl⟩
        · exact .inl ⟨rfl, _, h.coherent.forgetCell ⟨k, col⟩, h.rest⟩
        · exact .inr ⟨failed, rfl⟩
    refine Ends.bind (Ends.mono asks fun o w hw => ?_)
    rcases hw with ⟨rfl, stands⟩ | ⟨⟨e, rfl⟩, left⟩
    · exact .inl ⟨(), rfl, ends_pure _ (.inl ⟨rfl, stands⟩)⟩
    · exact .inr ⟨e, rfl, .inr ⟨⟨e, rfl⟩, left⟩⟩
  | put | get | hasKey | values | keys | sync => exact removal.elim

end Cache.Laws

/-! ## A host whose table refuses any calls -/

structure Fickle where
  cache : CacheState := {}
  table : Table Column
  clock : UInt64 := 0
  /-- how often an order has been drawn -/
  drawn : Nat := 0
  toll : Toll := {}

namespace Fickle

variable (settings : CacheSettings) (width : Nat) (whims : Whims)
  (walk : Nat → List (Address Column) → List (Address Column))

/-- the cache of a host -/
def cacheOver : Cache (Run Fickle) where
  inner := whims.rows Fickle.toll (fun x h => { h with toll := x }) Fickle.table (fun t h => { h with table := t }) width
  settings := settings
  state := Run.part Fickle.cache fun x h => { h with cache := x }
  now := (Run.part Fickle.clock fun time h => { h with clock := time }).read
  order as := fun h => (.ok (walk h.drawn as), { h with drawn := h.drawn + 1 })

def act : Host.Step → Run Fickle Unit
  | .call q => do let _ ← (cacheOver settings width whims walk).rows.call q
  | .flush empty => (cacheOver settings width whims walk).flush empty
  | .evict => do let _ ← (cacheOver settings width whims walk).runEvictions
  | .clock time => (Run.part Fickle.clock fun time h => { h with clock := time }).write time

/-- the host after some steps, whatever each of them answers -/
def after (steps : List Host.Step) (h : Fickle) : Fickle :=
  steps.foldl (fun h step => (act settings width whims walk step h).2) h

/-- where nothing is refused, gets answer from a table -/
def Reads (h : Fickle) (p : Table Column) : Prop :=
  ∀ k col, ((cacheOver settings width .calm walk).get k col h).1 = .ok (p.get k col)

/-- what a host shows of its cache and its table -/
def Viewed (h : Fickle) (v : Layer CacheState Unit) : Prop := h.cache = v.held ∧ h.table = v.beneath

/-- the plain table that the cache and the table of a host stand for -/
def Plain : Fickle → Table Column → Prop := Layer.Plain Viewed ()

variable {settings width whims walk} {h : Fickle} {p : Table Column}

/-- what a call leaves that ends with the same plain table or fails without effect -/
theorem keeps_plain {α : Type} {o : Except Error α} {v w : Layer CacheState Unit} {may : Prop} {P : α → Prop}
    (stands : v.StandsFor p ())
    (hw : (∃ a, o = .ok a ∧ w.StandsFor p () ∧ P a) ∨ may ∧ (∃ e, o = .error e) ∧ w = v) : w.StandsFor p () := by
  rcases hw with ⟨_, _, same, _⟩ | ⟨_, _, rfl⟩
  · exact same
  · exact stands

section

variable (perm : ∀ n as, (walk n as).Perm as)

include perm

variable (settings width whims) in
theorem cacheOver_laws : (cacheOver settings width whims walk).Laws Viewed Eq whims.May where
  inner _ _ := by
    apply Whims.rows_serve
    · exact fun _ _ hs => hs.2
    · exact fun _ _ _ hs => hs
    · exact fun _ _ _ hs => ⟨hs.1, rfl⟩
  read _ _ hs := ⟨_, hs, _, rfl, hs.1, rfl⟩
  write x v _ hs := ⟨{ v with held := x }, ⟨rfl, hs.2⟩, (), rfl, rfl⟩
  now v _ hs := ⟨v, hs, _, rfl, rfl⟩
  order as v _ hs := ⟨v, hs, _, rfl, perm _ as, rfl⟩

omit perm in
theorem cacheOver_trims (x : CacheState) (r : Unit) :
    (cacheOver settings width whims walk).inner.Trims (fun h t => Viewed h ⟨x, t, r⟩) whims.May := by
  apply Whims.rows_trim
  · exact fun _ _ hs => hs.2
  · exact fun _ _ _ hs => hs
  · exact fun _ _ _ hs => ⟨hs.1, rfl⟩

omit perm in
theorem cacheOver_lists (x : CacheState) (r : Unit) :
    (cacheOver settings width whims walk).inner.Lists (fun h t => Viewed h ⟨x, t, r⟩) whims.May := by
  apply Whims.rows_list
  · exact fun _ _ hs => hs.2
  · exact fun _ _ _ hs => hs

/-- **One call**: the host stands for some plain table, which stays the same if nothing is put or removed. -/
theorem call_stands (q : Call) (p : Table Column) :
    Ends Plain ((cacheOver settings width whims walk).rows.call q) p fun _ u => Host.Step.Quiet (.call q) → u = p := by
  have laws := cacheOver_laws settings width whims perm
  by_cases removal : q.Removal
  · refine Layer.ends_plain fun v h => ?_
    refine Ends.mono (laws.removal cacheOver_trims h removal) fun o w hw => ?_
    have loud : ¬ Host.Step.Quiet (.call q) := by
      cases q <;> first | exact removal.elim | exact id
    rcases hw with ⟨_, p', stands⟩ | ⟨_, rfl⟩
    · exact ⟨p', stands, fun quiet => absurd quiet loud⟩
    · exact ⟨_, ⟨h.coherent.forgets removal, h.rest⟩, fun quiet => absurd quiet loud⟩
  · cases q with
    | put k col u =>
      refine Ends.then_pure (Layer.ends_plain fun v h => Ends.mono (laws.put k col u h) fun _ w hw => ?_)
      exact ⟨_, hw.1, False.elim⟩
    | get k col =>
      refine Ends.map_answer (Layer.ends_plain fun v h => Ends.mono (laws.get k col h) fun _ w hw => ?_)
      exact ⟨p, keeps_plain h hw, fun _ => rfl⟩
    | hasKey k =>
      refine Ends.map_answer (Layer.ends_plain fun v h => Ends.mono (laws.hasKey k h) fun _ w hw => ?_)
      exact ⟨p, keeps_plain h hw, fun _ => rfl⟩
    | values k =>
      refine Ends.map_answer (Layer.ends_plain fun v h => Ends.mono (laws.values k h) fun _ w hw => ?_)
      exact ⟨p, hw.1, fun _ => rfl⟩
    | keys =>
      refine Ends.map_answer (Layer.ends_plain fun v h => Ends.mono (laws.keys cacheOver_lists h) fun _ w hw => ?_)
      exact ⟨p, keeps_plain h hw, fun _ => rfl⟩
    | sync =>
      refine Ends.then_pure (Layer.ends_plain fun v h => Ends.mono (laws.sync h) fun _ w hw => ?_)
      exact ⟨p, hw.1, fun _ => rfl⟩
    | delete k => exact absurd trivial removal
    | deleteColumn k col => exact absurd trivial removal

/-- **One step** of a host does so too. -/
theorem act_stands (step : Host.Step) (p : Table Column) :
    Ends Plain (act settings width whims walk step) p fun _ u => step.Quiet → u = p := by
  have laws := cacheOver_laws settings width whims perm
  cases step with
  | call q => exact (call_stands perm q p).then_pure
  | flush empty => exact Layer.ends_plain fun v h => Ends.mono (laws.flush empty h) fun _ w hw => ⟨p, hw.1, fun _ => rfl⟩
  | evict =>
    refine Ends.then_pure (Layer.ends_plain fun v h => Ends.mono (laws.runEvictions h) fun _ w hw => ?_)
    obtain ⟨_, _, stands⟩ := hw
    exact ⟨p, stands, fun _ => rfl⟩
  | clock time =>
    intro h stands
    exact ⟨p, stands, fun _ => rfl⟩

variable (settings width whims) in
theorem after_stands (steps : List Host.Step) (stands : Plain h p) :
    ∃ q, Plain (after settings width whims walk steps h) q := by
  induction steps generalizing h p with
  | nil => exact ⟨p, stands⟩
  | cons step steps ih =>
    obtain ⟨q, moved, _⟩ := act_stands perm step p h stands
    exact ih moved

variable (settings width whims) in
theorem after_quiet (steps : List Host.Step) (quiet : ∀ step ∈ steps, step.Quiet) (stands : Plain h p) :
    Plain (after settings width whims walk steps h) p := by
  induction steps generalizing h with
  | nil => exact stands
  | cons step steps ih =>
    obtain ⟨q, moved, same⟩ := act_stands perm step p h stands
    obtain rfl := same (quiet step List.mem_cons_self)
    exact ih (fun s later => quiet s (List.mem_cons_of_mem step later)) moved

variable (settings width) in
theorem Plain.reads (stands : Plain h p) : Reads settings width walk h p := by
  intro k col
  obtain ⟨v, shown, coherent⟩ := stands
  have laws := cacheOver_laws settings width .calm perm
  obtain ⟨_, _, _, run, _, _, rfl⟩ := ((laws.get k col coherent).yields (Whims.not_may_calm _)).run shown
  rw [run]

/-- a flush that ends well leaves no marks, and the plain table beneath -/
theorem Plain.flushed (stands : Plain h p) {empty : Bool} {h' : Fickle}
    (ok : (cacheOver settings width whims walk).flush empty h = (.ok (), h')) :
    (∀ a, a ∉ h'.cache.marks) ∧ h'.table = p := by
  obtain ⟨v, shown, coherent⟩ := stands
  obtain ⟨w, shown', stands', ⟨_, unmarked⟩ | ⟨⟨e, failed⟩, _⟩⟩ :=
    (cacheOver_laws settings width whims perm).flush empty coherent h shown
  · rw [ok] at shown'
    obtain ⟨cache, table⟩ := shown'
    dsimp only at cache table
    rw [cache, table]
    exact ⟨unmarked, stands'.coherent.eq_of_unmarked unmarked⟩
  · rw [ok] at failed
    cases failed

end

/-- **A removal that fails drops what waited to be written**, and no more. Take a host after any run, whatever its table has
refused, and any removal of a row or a cell that fails. From then on, as long as nothing is put or removed, gets that are
not refused answer as before it, except in the cells that it was to remove and that waited to be written: these are as the
table has them. A flush that ends well leaves just that in the table, so every other write that waited is written. -/
theorem failed_removal_drops_pending (perm : ∀ n as, (walk n as).Perm as) (t : Table Column) (now : UInt64)
    (steps : List Host.Step) {q : Call} (removal : q.Removal) {e : Error} {h' : Fickle} :
    let h := after settings width whims walk steps { table := t, clock := now }
    (cacheOver settings width whims walk).rows.call q h = (.error e, h') →
      ∃ p p' : Table Column, Reads settings width walk h p ∧
        (∀ a : Address Column, p'.get a.key a.column =
          if q.removes a = true ∧ a ∈ h.cache.marks then h.table.get a.key a.column else p.get a.key a.column) ∧
        ∀ later, (∀ step ∈ later, step.Quiet) →
          let g := after settings width whims walk later h'
          Reads settings width walk g p' ∧
            ∀ empty g', (cacheOver settings width whims walk).flush empty g = (.ok (), g') →
              (∀ a, a ∉ g'.cache.marks) ∧ g'.table = p' := by
  intro h failed
  have start : Plain { table := t, clock := now } t := ⟨⟨{}, t, ()⟩, ⟨rfl, rfl⟩, .new t, rfl⟩
  obtain ⟨p, stands⟩ := after_stands settings width whims perm steps start
  obtain ⟨v, shown, coherent⟩ := id stands
  have laws := cacheOver_laws settings width whims perm
  obtain ⟨w, shown', ⟨ok, _⟩ | ⟨_, rfl⟩⟩ := laws.removal cacheOver_trims coherent removal h shown
  · rw [failed] at ok
    cases ok
  rw [failed] at shown'
  have left : Plain h' (p.takeBack v.beneath q.removes) := ⟨_, shown', coherent.coherent.forgets removal, coherent.rest⟩
  refine ⟨p, p.takeBack v.beneath q.removes, stands.reads settings width perm, fun a => ?_, fun later quiet => ?_⟩
  · rw [Table.get_takeBack, shown.1, shown.2]
    by_cases gone : q.removes a = true
    · rw [if_pos gone]
      by_cases marked : a ∈ v.held.marks
      · rw [if_pos ⟨gone, marked⟩]
      · rw [if_neg fun both => marked both.2]
        exact coherent.coherent.clean a marked List.not_mem_nil
    · rw [if_neg gone, if_neg fun both => gone both.1]
  · have still := after_quiet settings width whims perm later quiet left
    exact ⟨still.reads settings width perm, fun empty g' ok => still.flushed perm ok⟩

/-- of the row that could not be deleted, what had been flushed is read again; a put to another row is written -/
theorem failed_removal_drops_pending_of_row :
    let whims : Whims := fun n _ => if n = 1 then some (.backend "down") else none
    let c := cacheOver {} 4 whims fun _ => List.reverse
    let read (k : Key) (col : Column) (h : Fickle) := ((cacheOver {} 4 .calm fun _ => List.reverse).get k col h).1
    let h := after {} 4 whims (fun _ => List.reverse) [.call (.put "k" 0 [1]), .flush false, .call (.put "k" 0 [2]),
      .call (.put "k" 1 [3]), .call (.put "l" 0 [4])] { table := .empty }
    let g := (c.rows.call (.delete "k") h).2
    read "k" 0 h = .ok (some [2]) ∧ (c.rows.call (.delete "k") h).1 = .error (.backend "down") ∧
      read "k" 0 g = .ok (some [1]) ∧ read "k" 1 g = .ok none ∧ read "l" 0 g = read "l" 0 h ∧
      ∃ g', c.flush false g = (.ok (), g') ∧ g'.table.get "l" 0 = some [4] := by
  intro whims c read h g
  have perm : ∀ (n : Nat) (as : List (Address Column)), as.reverse.Perm as := fun _ as => List.reverse_perm as
  have refused : (c.rows.call (.delete "k") h).1 = .error (.backend "down") := by decide +kernel
  have flushed : (c.flush false g).1 = .ok () := by decide +kernel
  have ran : c.rows.call (.delete "k") h = (.error (.backend "down"), g) := Prod.ext refused rfl
  obtain ⟨p, p', before, cells, later⟩ := failed_removal_drops_pending perm .empty 0
    [.call (.put "k" 0 [1]), .flush false, .call (.put "k" 0 [2]), .call (.put "k" 1 [3]), .call (.put "l" 0 [4])]
    (q := .delete "k") trivial ran
  obtain ⟨reads, writes⟩ := later [] nofun
  have lost (col : Column) (marked : ⟨"k", col⟩ ∈ h.cache.marks) : p'.get "k" col = h.table.get "k" col :=
    (cells ⟨"k", col⟩).trans (if_pos ⟨rfl, marked⟩)
  have kept : p'.get "l" 0 = p.get "l" 0 := (cells ⟨"l", 0⟩).trans (if_neg (by decide))
  have there : p.get "l" 0 = some [4] := Except.ok.inj ((before "l" 0).symm.trans (by decide +kernel))
  refine ⟨by decide +kernel, refused, ?_, ?_, ?_, (c.flush false g).2, Prod.ext flushed rfl, ?_⟩
  · exact (reads "k" 0).trans (congrArg Except.ok ((lost 0 (by decide +kernel)).trans (by decide +kernel)))
  · exact (reads "k" 1).trans (congrArg Except.ok ((lost 1 (by decide +kernel)).trans (by decide +kernel)))
  · exact (reads "l" 0).trans (kept ▸ (before "l" 0).symm)
  · obtain ⟨_, table⟩ := writes false (c.flush false g).2 (Prod.ext flushed rfl)
    rw [table, kept, there]

/-- a put that has been taken is not there any more once the deletion of its row has failed -/
theorem failed_removal_loses_put :
    let whims : Whims := fun n _ => if n = 0 then some (.backend "down") else none
    let c := cacheOver {} 4 whims fun _ => List.reverse
    let read (h : Fickle) := ((cacheOver {} 4 .calm fun _ => List.reverse).get "k" 0 h).1
    let h := after {} 4 whims (fun _ => List.reverse) [.call (.put "k" 0 [1])] { table := .empty }
    let g := (c.rows.call (.delete "k") h).2
    read h = .ok (some [1]) ∧ (c.rows.call (.delete "k") h).1 = .error (.backend "down") ∧ read g = .ok none ∧
      (c.flush false g).1 = .ok () ∧ (c.flush false g).2.table.get "k" 0 = none := by
  decide +kernel

end Fickle

end RowFiles
