/-
Locks in stacks: each contender reaches the lock's row through a stack of his own over shared tables.

The stacks of two processes are one shape with different caches. A lock goes beneath the caches on top, so it matters what
lies there (`Stack.bottom`).

- `StackContest.one_owner`: if that is the same stack for all, and a stack of tables, shards and links only, then after any
  whole attempts and releases at most one contender owns the lock, and an attempt of another is refused.
- `StackContest.two_owners_cached_between`: caches beneath links are not bypassed, as a linked store hides the buffering
  beneath it. What a winner writes stays in his own cache, and two contenders own the lock.
-/
import RowFiles.Proofs.Lock.Exclusion
import RowFiles.Proofs.Store.Stacks

namespace RowFiles

open Run

/-! ## Stores within a larger state -/

def Store.within {σ τ : Type} (get : σ → τ) (set : τ → σ → σ) (s : Store (Run τ)) : Store (Run σ) where
  toRows := s.toRows.within get set
  linker := s.linker.map fun l =>
    ⟨fun k => Run.within get set (l.resolve k), fun k q => Run.within get set (l.link k q),
      fun k => Run.within get set (l.unlink k)⟩
  uncached := s.uncached.map (Rows.within get set)

theorem Store.shared_within {σ τ : Type} (get : σ → τ) (set : τ → σ → σ) (s : Store (Run τ)) :
    (s.within get set).shared = s.shared.within get set := by
  rw [shared, shared, within]
  cases s.uncached <;> rfl

/-! ## Contenders and their stacks -/

/-- a lock, the stack through which each contender reaches it, and the store beneath the catalogs -/
structure StackContest (μ ι : Type) where
  name : Key
  draws : Draws
  stack : ι → Stack
  names : Rows (Run μ)
  contender : ι → Contender

namespace StackContest

variable {μ ι : Type}

/-- the contest in one store, which all contenders reach -/
def contest (g : StackContest μ ι) (S : Stack) : Contest Depot μ ι :=
  ⟨g.name, (S.store g.draws.backing).toRows, g.names, g.contender⟩

section Turns

variable [DecidableEq ι] (g : StackContest μ ι)

/-- a contender's handle -/
def lock (i : ι) : Lock (Run (Arena Depot μ ι)) :=
  .ofStore (((g.stack i).store g.draws.backing).within Arena.data fun t s => { s with data := t })
    ((g.contest (g.stack i)).catalog (g.contender i).process) (g.contender i).expiry
    (Run.part Arena.clock fun time s => { s with clock := time }).read g.name (g.contender i).signature
    (Run.part (·.owned i) fun yes s => { s with owned := Function.update s.owned i yes })

/-- a whole call of a contender, or the clock is moved -/
inductive Turn (ι : Type) where
  | obtain (i : ι)
  | close (i : ι)
  | clock (time : UInt64)

def take : Turn ι → Run (Arena Depot μ ι) Unit
  | .obtain i => do let _ ← (g.lock i).obtain
  | .close i => (g.lock i).close
  | .clock time => fun s => (.ok (), { s with clock := time, data := { s.data with clock := time } })

end Turns

/-! ## One owner -/

variable {g : StackContest μ ι} {S : Stack} {N : μ → Table Column → Prop}

/-- the depot shows the row of the lock, and no other -/
def Alone (g : StackContest μ ι) (S : Stack) (s : Depot) (t : Table Column) : Prop :=
  S.Shows g.draws.fresh s t ∧ ∀ k c, k ≠ g.name → t.get k c = none

/-- **A stack without buffers will do for a lock**, as long as nothing else is kept in it. -/
theorem attends (bare : S.Bare) (names : g.names.Serves N List.Perm never) (trims : g.names.Trims N never) :
    (g.contest S).Attends (g.Alone S) N := by
  have holds := (Stack.rows_hold g.draws bare).rows
  refine ⟨fun c u t => ?_, fun c t => ?_, fun c t => ?_, fun t => ?_, names, trims⟩
  · refine (holds.put g.name c u t).keep_step fun alone => ⟨fun k c' hk => ?_, rfl⟩
    rw [Table.get_put, if_neg fun e => hk e.1.symm]
    exact alone k c' hk
  · exact (holds.get g.name c t).keep_next fun alone => ⟨alone, rfl, rfl⟩
  · refine (holds.deleteColumn g.name c t).keep_step fun alone => ⟨fun k c' hk => ?_, rfl⟩
    rw [Table.get_deleteColumn, if_neg fun e => hk e.1.symm]
    exact alone k c' hk
  · refine (holds.values g.name t).keep fun alone vs w h => ?_
    obtain ⟨scans, rfl⟩ := h
    refine ⟨alone, fun u => ⟨fun hu => ?_, fun hu => ?_⟩, rfl⟩
    · obtain ⟨k, c, hc⟩ := scans.only hu
      by_cases hk : k = g.name
      · rw [hk] at hc
        exact ⟨c, hc⟩
      · rw [alone k c hk] at hc
        cases hc
    · obtain ⟨c, hc⟩ := hu
      exact scans.all hc

variable [DecidableEq ι]

/-- caches on top are bypassed -/
theorem lock_eq {i : ι} (bottom : (g.stack i).bottom = S) : g.lock i = (g.contest S).lock i := by
  rw [lock, Contest.lock, Lock.ofStore, Lock.ofStore, Store.shared_within, Stack.shared_store, bottom]
  rfl

/-- one turn keeps the exclusion -/
theorem take_excludes (bottom : ∀ i, (g.stack i).bottom = S) (distinct : Function.Injective (g.contest S).signature)
    (rel : (g.contest S).Attends (g.Alone S) N) (turn : Turn ι) {v : Arena.View ι} (h : (g.contest S).Excludes v) :
    Yields (Arena.Shows (g.Alone S) N) (g.take turn) v fun _ w => (g.contest S).Excludes w := by
  cases turn with
  | obtain i =>
    rw [take, lock_eq (bottom i)]
    refine (Contest.obtain_excludes distinct rel i h).bind ?_
    intro _ w hw
    exact yields_pure () hw.1
  | close i =>
    rw [take, lock_eq (bottom i)]
    exact (Contest.close_excludes distinct rel i h).mono fun _ _ hw => hw.1
  | clock time =>
    intro s hs
    have shows : g.Alone S { s.data with clock := time } v.data :=
      ⟨hs.data.1.congr (fun _ _ => rfl) (Nat.le_refl _), hs.data.2⟩
    exact ⟨{ v with clock := time }, ⟨shows, hs.names, hs.catalogs, rfl, hs.owned⟩, (), rfl, h⟩

theorem turns_exclude (bottom : ∀ i, (g.stack i).bottom = S) (distinct : Function.Injective (g.contest S).signature)
    (rel : (g.contest S).Attends (g.Alone S) N) (turns : List (Turn ι)) {v : Arena.View ι}
    (h : (g.contest S).Excludes v) :
    Yields (Arena.Shows (g.Alone S) N) (turns.forM g.take) v fun _ w => (g.contest S).Excludes w := by
  induction turns generalizing v with
  | nil => exact yields_pure () h
  | cons turn turns ih => exact (take_excludes bottom distinct rel turn h).bind fun _ w hw => ih hw

/-- **One owner.** Contenders with different signatures, whose stacks have the same tables, shards and links beneath all of
their caches, over empty tables: after any whole attempts and releases, whatever the caches hold and however the clock is
moved, no call has failed, at most one contender owns the lock, and while one does, the attempt of another is refused and
changes no owner. -/
theorem one_owner (g : StackContest μ ι) (S : Stack) (bare : S.Bare) (bottom : ∀ i, (g.stack i).bottom = S)
    (distinct : Function.Injective fun i => Lock.effective (g.contender i).signature)
    (names : g.names.Serves N List.Perm never) (trims : g.names.Trims N never) (s : Arena Depot μ ι) (m : Table Column)
    (empty : ∀ n, s.data.tables n = .empty) (start : N s.names m) (free : ∀ i, s.owned i = false) (turns : List (Turn ι)) :
    ∃ s', turns.forM g.take s = (.ok (), s') ∧ (∀ i j, s'.owned i = true → s'.owned j = true → i = j) ∧
      ∀ i j, j ≠ i → s'.owned j = true →
        ∃ s'', (g.lock i).obtain s' = (.ok false, s'') ∧ s''.owned = s'.owned := by
  have rel : (g.contest S).Attends (g.Alone S) N := attends bare names trims
  have shows : Arena.Shows (g.Alone S) N s { s with data := .empty, names := m } :=
    ⟨⟨Stack.shows_empty bare empty, fun _ _ _ => Table.get_empty _ _⟩, start, rfl, rfl, rfl⟩
  have excludes : (g.contest S).Excludes { s with data := .empty, names := m } :=
    Contest.Exclusive.fresh (fun _ => Table.get_empty _ _) free
  obtain ⟨_, s', v, run, shows', exclusive⟩ := (turns_exclude bottom distinct rel turns excludes).run shows
  refine ⟨s', run, ?_, fun i j hj own => ?_⟩
  · rw [shows'.owned]
    exact exclusive.single
  · rw [shows'.owned] at own
    obtain ⟨yes, s'', w, tried, shows'', _, changed, refused⟩ :=
      (Contest.obtain_excludes distinct rel i exclusive).run shows'
    obtain rfl := refused j hj own
    -- one who owns nothing while another does stays without the lock
    have mine : v.owned i = false := by
      by_contra hi
      exact hj (exclusive.single j i own (by simpa using hi))
    refine ⟨s'', ?_, ?_⟩
    · rw [lock_eq (bottom i), tried]
    · rw [shows''.owned, shows'.owned, changed]
      exact Function.update_eq_self_iff.2 mine.symm

/-- two processes with a contender each, the stack of the second built with a cache of its own -/
def ofTwo (shape : Nat → Stack) : StackContest (Table Column) Bool where
  name := "lock"
  draws := .simple
  stack second := shape second.toNat
  names := Table.plainRows 64
  contender second :=
    { signature := if second then 2 else 1, expiry := some (.ofSeconds 30), process := second.toNat }

/-- caches on top of links into a table in shards: the first takes the lock, and an hour later the second is refused -/
theorem one_owner_cached_on_top :
    let g := ofTwo fun cache => .cached cache {} (.linked (.memory 0 64) (.sharded {} (.memory 1 64)))
    ∃ s', [.obtain false, .clock 3600000, .obtain true].forM g.take { data := {}, names := .empty } = (.ok (), s') ∧
      (∀ i j, s'.owned i = true → s'.owned j = true → i = j) ∧
      ∀ i j, j ≠ i → s'.owned j = true →
        ∃ s'', (g.lock i).obtain s' = (.ok false, s'') ∧ s''.owned = s'.owned :=
  one_owner (N := Eq) _ (.linked (.memory 0 64) (.sharded {} (.memory 1 64)))
    (by simp [Stack.Bare, Stack.tables]) (fun _ => rfl) (by rintro (_ | _) (_ | _) <;> decide)
    (Table.plainRows_serve.scan_mono fun _ _ h => h ▸ .refl _) Table.plainRows_trim _ .empty (fun _ => rfl) rfl
    (fun _ => rfl) _

/-- **Two owners** where caches lie between links and shards. The bid and the state of the winner stay in the cache of the
first process; thirty seconds later the second finds an abandoned round beneath, clears it and wins. -/
theorem two_owners_cached_between :
    let g := ofTwo fun cache => .linked (.memory 0 64) (.cached cache {} (.sharded { shards := 4 } (.memory 1 64)))
    let run := [.obtain false, .clock 30000, .obtain true].forM g.take { data := {}, names := .empty }
    run.1.isOk ∧ run.2.owned false = true ∧ run.2.owned true = true := by
  decide +kernel

end StackContest

end RowFiles
