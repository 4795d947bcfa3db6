/-
Stacks over a depot of tables.

A depot has the tables of all stacks that are built over it, and the caches, each in a slot of its own. Stacks that differ
in the slots of their caches only are the same stack built several times, over the same tables.

- `Stack.shared_store`: what lies beneath all buffering is a stack too, the one without the caches on top.
- `Stack.rows_hold`: a stack of tables, shards and links holds the cells of a table, which its own tables decide.
-/
import RowFiles.Proofs.Store.Cells
import RowFiles.Store.Stack

namespace RowFiles

open Run

/-! ## Beneath the caches -/

namespace Stack

/-- the stack beneath all buffering on top -/
def bottom (s : Stack) : Stack := s.uncached?.getD s

section

variable {m : Type → Type} [Monad m] [MonadExceptOf Error m] {σ : Type} (b : Backing m σ) (s : Stack)

theorem uncached_store : (s.store b).uncached = s.uncached?.map fun t => (t.store b).toRows := by
  induction s with
  | memory | wide | sharded | linked => rfl
  | cached slot settings inner ih =>
    refine congrArg some ?_
    rw [Store.shared, ih]
    cases inner.uncached? <;> rfl
  | probed slot inner ih => exact ih

/-- **Beneath the buffering** of a stack lies the stack without the caches on top. -/
theorem shared_store : (s.store b).shared = (s.bottom.store b).toRows := by
  rw [Store.shared, uncached_store, bottom]
  cases s.uncached? <;> rfl

end

/-! ## Stacks without buffers -/

/-- the tables of a stack -/
def tables : Stack → List Nat
  | .memory table _ => [table]
  | .wide .. => []
  | .sharded _ inner | .cached _ _ inner | .probed _ inner => inner.tables
  | .linked links inner => links.tables ++ inner.tables

/-- nothing but tables, shards and links, whose links lie in tables of their own -/
def Bare : Stack → Prop
  | .memory .. => True
  | .sharded settings inner => settings.shards ≠ 0 ∧ inner.Bare
  | .linked links inner => links.Bare ∧ inner.Bare ∧ links.tables.Disjoint inner.tables
  | .wide .. | .cached .. | .probed .. => False

end Stack

/-! ## Depots -/

structure Depot where
  tables : Nat → Table Column := fun _ => .empty
  sessions : Nat → SessionTable := fun _ => {}
  known : Nat → KnownRows := fun _ => ∅
  caches : Nat → CacheState := fun _ => {}
  probes : Nat → ProbeState Unit := fun _ => {}
  clock : UInt64 := 0
  /-- how many keys have been drawn -/
  made : Nat := 0

/-- what is drawn by the stacks of a depot -/
structure Draws where
  /-- the `m`th key that is drawn, of a length -/
  fresh : Nat → Nat → Key
  /-- the order in which caches write marked cells -/
  walk : List (Address Column) → List (Address Column)
  /-- no key is drawn twice -/
  distinct : ∀ {v w m n}, fresh v m = fresh w n → m = n

/-- keys of more and more letters, and ascending orders -/
def Draws.simple : Draws where
  fresh _ m := String.ofList (List.replicate m 'k')
  walk := id
  distinct := letters_distinct

/-- a slot of a depot -/
def Depot.slot {α : Type} (get : Depot → Nat → α) (set : (Nat → α) → Depot → Depot) (n : Nat) : Part (Run Depot) α :=
  Run.part (fun s => get s n) fun a s => set (Function.update (get s) n a) s

def Draws.backing (d : Draws) : Backing (Run Depot) Unit where
  table := Depot.slot Depot.tables fun f s => { s with tables := f }
  session := Depot.slot Depot.sessions fun f s => { s with sessions := f }
  known := Depot.slot Depot.known fun f s => { s with known := f }
  cache := Depot.slot Depot.caches fun f s => { s with caches := f }
  probe := Depot.slot Depot.probes fun f s => { s with probes := f }
  rivals := pure
  now := fun s => (.ok s.clock, s)
  freshKey v := fun s => (.ok (d.fresh v s.made), { s with made := s.made + 1 })
  order as := pure (d.walk as)
  orderKeys := pure

namespace Depot

/-- nothing but the tables `ns` may differ in what stacks without buffers see -/
structure Near (ns : List Nat) (s s' : Depot) : Prop where
  tables : ∀ n, n ∉ ns → s'.tables n = s.tables n
  made : s.made ≤ s'.made

end Depot

namespace Stack

/-- the table whose cells a stack without buffers holds -/
def Shows (fresh : Nat → Nat → Key) : Stack → Depot → Table Column → Prop
  | .memory table _, s, t => s.tables table = t
  | .sharded settings inner, s, t => ∃ u, inner.Shows fresh s u ∧ settings.Spread t u
  | .linked links inner, s, t => ∃ w : Wires,
    (links.Shows fresh s w.links ∧ inner.Shows fresh s w.inner ∧ w.made ≤ s.made) ∧ w.Carries fresh t
  | .wide .., _, _ | .cached .., _, _ | .probed .., _, _ => False

variable {fresh : Nat → Nat → Key} {S : Stack} {s s' : Depot} {t : Table Column}

/-- what a stack shows is decided by its own tables -/
theorem Shows.congr (h : S.Shows fresh s t) (same : ∀ n ∈ S.tables, s'.tables n = s.tables n) (made : s.made ≤ s'.made) :
    S.Shows fresh s' t := by
  induction S generalizing t with
  | memory table => exact (same table List.mem_cons_self).trans h
  | sharded settings inner ih =>
    obtain ⟨u, shows, spread⟩ := h
    exact ⟨u, ih shows same, spread⟩
  | linked links inner ihLinks ihInner =>
    obtain ⟨w, ⟨hl, hi, le⟩, carries⟩ := h
    refine ⟨w, ⟨ihLinks hl fun n hn => ?_, ihInner hi fun n hn => ?_, Nat.le_trans le made⟩, carries⟩
    · exact same n (List.mem_append_left _ hn)
    · exact same n (List.mem_append_right _ hn)
  | wide | cached | probed => exact h.elim

/-- over empty tables a stack shows nothing -/
theorem shows_empty (bare : S.Bare) (empty : ∀ n, s.tables n = .empty) : S.Shows fresh s .empty := by
  induction S with
  | memory table => exact empty table
  | sharded settings inner ih => exact ⟨.empty, ih bare.2, .empty⟩
  | linked links inner ihLinks ihInner =>
    exact ⟨⟨.empty, .empty, 0⟩, ⟨ihLinks bare.1, ihInner bare.2.1, Nat.zero_le _⟩, Wires.carries_empty⟩
  | wide | cached | probed => exact bare.elim

/-- a stack holds the cells of the table that it shows; whatever else is known of the depot stays true, if the stack's own
tables do not decide it -/
def Holds (d : Draws) (S : Stack) : Prop :=
  ∀ I : Depot → Prop, (∀ s s', Depot.Near S.tables s s' → I s → I s') →
    (S.store d.backing).toRows.Holds fun s t => S.Shows d.fresh s t ∧ I s

variable (d : Draws) {links inner : Stack}

variable {d} in
theorem Holds.rows (holds : S.Holds d) : (S.store d.backing).toRows.Holds (S.Shows d.fresh) :=
  (holds (fun _ => True) fun _ _ _ h => h).of_iff fun _ _ => and_iff_left trivial

theorem memory_holds (table width : Nat) : (memory table width).Holds d := by
  intro I stable
  have kept (s : Depot) (t u : Table Column) (h : s.tables table = t ∧ I s) :
      Function.update s.tables table u table = u ∧ I { s with tables := Function.update s.tables table u } := by
    refine ⟨Function.update_self .., stable s _ ⟨fun n hn => ?_, Nat.le_refl _⟩ h.2⟩
    exact Function.update_of_ne (fun e => hn (List.mem_singleton.2 e)) ..
  exact (Table.rows_serve (fun _ _ h => h.1) kept width never).holds (Table.rows_trim (fun _ _ h => h.1) kept width never)
    fun _ _ e _ => e ▸ Iff.rfl

/-- what is known beside the tables beneath a stack is known beside the table that it shows by them -/
theorem exists_beside {α : Type} {beneath shown : α → Prop} {known : Prop} :
    (∃ a, (beneath a ∧ known) ∧ shown a) ↔ (∃ a, beneath a ∧ shown a) ∧ known := by
  constructor
  · intro h
    obtain ⟨a, ⟨below, rest⟩, above⟩ := h
    exact ⟨⟨a, below, above⟩, rest⟩
  · intro h
    obtain ⟨⟨a, below, above⟩, rest⟩ := h
    exact ⟨a, ⟨below, rest⟩, above⟩

theorem sharded_holds {settings : ShardSettings} (positive : settings.shards ≠ 0) (holds : inner.Holds d) :
    (sharded settings inner).Holds d := by
  intro I stable
  exact (Sharded.rows_hold positive (holds I stable)).of_iff fun s t => exists_beside

/-- links and the rows behind them do not touch each other -/
theorem linked_laws (holdsLinks : links.Holds d) (holdsInner : inner.Holds d)
    (apart : links.tables.Disjoint inner.tables) {I : Depot → Prop}
    (stable : ∀ s s', Depot.Near (linked links inner).tables s s' → I s → I s') :
    (d.backing.linksIn (links.store d.backing).toRows).Laws (inner.store d.backing).toRows d.fresh fun s w =>
      (links.Shows d.fresh s w.links ∧ inner.Shows d.fresh s w.inner ∧ w.made ≤ s.made) ∧ I s := by
  have near {ns : List Nat} {s s' : Depot} (h : Depot.Near ns s s') (own : ∀ n ∈ ns, n ∈ (linked links inner).tables) :
      Depot.Near (linked links inner).tables s s' := ⟨fun n hn => h.tables n fun hn' => hn (own n hn'), h.made⟩
  refine ⟨fun w => ?_, fun w => ?_, fun v w s hs => ?_⟩
  · refine (holdsLinks (fun s => (inner.Shows d.fresh s w.inner ∧ w.made ≤ s.made) ∧ I s) ?_).of_iff fun s t => ?_
    · intro s s' h hs
      obtain ⟨⟨shows, le⟩, rest⟩ := hs
      refine ⟨⟨shows.congr (fun n hn => h.tables n fun hn' => apart hn' hn) h.made, Nat.le_trans le h.made⟩, ?_⟩
      exact stable s s' (near h fun n => List.mem_append_left _) rest
    · exact ⟨fun h => ⟨⟨h.1, h.2.1⟩, h.2.2⟩, fun h => ⟨h.1.1, h.1.2, h.2⟩⟩
  · refine (holdsInner (fun s => (links.Shows d.fresh s w.links ∧ w.made ≤ s.made) ∧ I s) ?_).of_iff fun s t => ?_
    · intro s s' h hs
      obtain ⟨⟨shows, le⟩, rest⟩ := hs
      refine ⟨⟨shows.congr (fun n hn => h.tables n fun hn' => apart hn hn') h.made, Nat.le_trans le h.made⟩, ?_⟩
      exact stable s s' (near h fun n => List.mem_append_right _) rest
    · exact ⟨fun h => ⟨⟨h.2.1.1, h.1, h.2.1.2⟩, h.2.2⟩, fun h => ⟨h.1.2.1, ⟨h.1.1, h.1.2.2⟩, h.2⟩⟩
  · obtain ⟨⟨hl, hi, le⟩, rest⟩ := hs
    have later : Depot.Near (linked links inner).tables s { s with made := s.made + 1 } := ⟨fun _ _ => rfl, Nat.le_succ _⟩
    refine ⟨{ w with made := s.made + 1 }, ⟨⟨?_, ?_, Nat.le_refl _⟩, stable s _ later rest⟩, _, rfl, s.made, le, rfl, rfl⟩
    · exact hl.congr (fun _ _ => rfl) later.made
    · exact hi.congr (fun _ _ => rfl) later.made

theorem linked_holds (holdsLinks : links.Holds d) (holdsInner : inner.Holds d)
    (apart : links.tables.Disjoint inner.tables) : (linked links inner).Holds d := by
  intro I stable
  exact (LinkTable.rows_hold (linked_laws d holdsLinks holdsInner apart stable) d.distinct).of_iff fun s t => exists_beside

/-- **A stack of tables, shards and links holds the cells of a table.** -/
theorem rows_hold (bare : S.Bare) : S.Holds d := by
  induction S with
  | memory table width => exact memory_holds d table width
  | sharded settings inner ih => exact sharded_holds d bare.1 (ih bare.2)
  | linked links inner ihLinks ihInner => exact linked_holds d (ihLinks bare.1) (ihInner bare.2.1) bare.2.2
  | wide | cached | probed => exact bare.elim

end Stack

end RowFiles
