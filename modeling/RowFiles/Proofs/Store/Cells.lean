/-
Layers that name rows anew and buffer nothing.

`Rows.Holds` asks less of a store than `Rows.Serves`: its cells are those of a table, but a scan of a row may find cells
of other rows too. Sharded stores are of this kind whatever their delimiter, as two rows may have a physical row in common.

- `Sharded.rows_hold`: a store holds the cells of its shards.
- `LinkTable.rows_hold`: a store holds the cells behind its links, if keys are not drawn twice.
-/
import RowFiles.Proofs.Store.Links
import RowFiles.Store.Sharded

namespace RowFiles

open Run

/-! ## Stores told by their cells -/

/-- all cells of a row, and nothing but cells of the table -/
structure Table.Scans (t : Table Column) (k : Key) (vs : List Bytes) : Prop where
  all : ∀ {c v}, t.get k c = some v → v ∈ vs
  only : ∀ {v}, v ∈ vs → ∃ l c, t.get l c = some v

/-- What is asked of a store: each call about a cell answers from the table that the state shows, and leaves a state that
shows the table changed by the call. No call fails. -/
structure Rows.Holds {τ : Type} (r : Rows (Run τ)) (Shows : τ → Table Column → Prop) : Prop where
  put : ∀ k c v t, Yields Shows (r.put k c v) t fun _ u => u = t.put k c v
  get : ∀ k c t, Yields Shows (r.get k c) t fun a u => a = t.get k c ∧ u = t
  deleteColumn : ∀ k c t, Yields Shows (r.deleteColumn k c) t fun _ u => u = t.deleteColumn k c
  values : ∀ k t, Yields Shows (r.values k) t fun vs u => t.Scans k vs ∧ u = t

section

variable {τ : Type} {r : Rows (Run τ)} {Shows : τ → Table Column → Prop}

theorem Rows.Serves.holds {scan : List Bytes → List Bytes → Prop} (serves : r.Serves Shows scan never)
    (trims : r.Trims Shows never) (members : ∀ as bs, scan as bs → ∀ v, v ∈ as ↔ v ∈ bs) : r.Holds Shows where
  put k c v t := (serves.put k c v t).yields id
  get k c t := (serves.get k c t).yields id
  deleteColumn k c t := (trims k c t).yields id
  values k t := by
    refine ((serves.values k t).yields id).mono ?_
    intro vs _ h
    obtain ⟨scanned, rfl⟩ := h
    refine ⟨⟨fun {c v} hv => ?_, fun {v} hv => ?_⟩, rfl⟩
    · exact (members _ _ scanned v).2 (Table.mem_values.2 ⟨c, hv⟩)
    · obtain ⟨c, hc⟩ := Table.mem_values.1 ((members _ _ scanned v).1 hv)
      exact ⟨k, c, hc⟩

theorem Rows.Holds.of_iff {Shows' : τ → Table Column → Prop} (holds : r.Holds Shows)
    (same : ∀ s t, Shows s t ↔ Shows' s t) : r.Holds Shows' := by
  obtain rfl : Shows = Shows' := funext₂ fun s t => propext (same s t)
  exact holds

end

/-! ## Shards -/

namespace ShardSettings

variable (s : ShardSettings)

/-- every cell has a place of its own -/
theorem same_place {k l : Key} {c d : Column} : s.shardKey k c = s.shardKey l d ∧ c = d ↔ k = l ∧ c = d :=
  and_congr_left fun e => by simp [e, shardKey, shardRow]

/-- the cells of the table `t` lie in the table `u`, each in the shard of its column -/
structure Spread (t u : Table Column) : Prop where
  cells : ∀ k c, u.get (s.shardKey k c) c = t.get k c
  owned : ∀ {q c v}, u.get q c = some v → ∃ k, q = s.shardKey k c

namespace Spread

variable {s} {t u : Table Column} (k : Key) (c : Column)

theorem empty : s.Spread .empty .empty where
  cells _ _ := by rw [Table.get_empty, Table.get_empty]
  owned h := by simp at h

theorem put (h : s.Spread t u) (v : Bytes) : s.Spread (t.put k c v) (u.put (s.shardKey k c) c v) where
  cells l d := by simp only [Table.get_put, s.same_place, h.cells]
  owned {q d w} found := by
    rw [Table.get_put] at found
    split_ifs at found with here
    · obtain ⟨rfl, rfl⟩ := here
      exact ⟨k, rfl⟩
    · exact h.owned found

theorem deleteColumn (h : s.Spread t u) : s.Spread (t.deleteColumn k c) (u.deleteColumn (s.shardKey k c) c) where
  cells l d := by simp only [Table.get_deleteColumn, s.same_place, h.cells]
  owned {q d w} found := by
    rw [Table.get_deleteColumn] at found
    split_ifs at found
    exact h.owned found

end Spread

end ShardSettings

namespace Sharded

variable {τ : Type} {Shows : τ → Table Column → Prop} {s : ShardSettings} {inner : Rows (Run τ)}

/-- what is gathered from the shards from `i` on: all of their rows, and nothing but cells of the table -/
theorem gather_scans (holds : inner.Holds Shows) (k : Key) (u : Table Column) (n i : Nat) (acc : List Bytes)
    (before : ∀ v ∈ acc, ∃ l c, u.get l c = some v) :
    Yields Shows (gather (fun i => inner.values (s.shardRow k i)) i acc n) u fun vs w =>
      (((∀ v ∈ acc, v ∈ vs) ∧ ∀ j, i ≤ j → j < i + n → ∀ {c v}, u.get (s.shardRow k j) c = some v → v ∈ vs) ∧
        ∀ {v}, v ∈ vs → ∃ l c, u.get l c = some v) ∧ w = u := by
  induction n generalizing i acc with
  | zero => exact yields_pure acc ⟨⟨⟨fun _ hv => hv, fun j le lt => absurd lt (Nat.not_lt.2 le)⟩, before _⟩, rfl⟩
  | succ n ih =>
    refine (holds.values _ u).bind ?_
    intro vs _ h
    obtain ⟨scans, rfl⟩ := h
    refine (ih (i + 1) (acc ++ vs) fun v hv => ?_).mono ?_
    · exact (List.mem_append.1 hv).elim (before v) scans.only
    intro ws w h
    obtain ⟨⟨⟨kept, later⟩, only⟩, rfl⟩ := h
    refine ⟨⟨⟨fun v hv => kept v (List.mem_append_left _ hv), fun j le lt c v hv => ?_⟩, only⟩, rfl⟩
    rcases Nat.eq_or_lt_of_le le with rfl | le
    · exact kept v (List.mem_append_right _ (scans.all hv))
    · exact later j le (by omega) hv

/-- **A sharded store holds the cells of its shards.** -/
theorem rows_hold (positive : s.shards ≠ 0) (holds : inner.Holds Shows) :
    (rows s inner).Holds fun st t => ∃ u, Shows st u ∧ s.Spread t u where
  put k c v t := by
    refine yields_behind fun u spread => (holds.put (s.shardKey k c) c v u).mono ?_
    intro _ _ h
    subst h
    exact ⟨_, spread.put k c v, rfl⟩
  get k c t := by
    refine yields_behind fun u spread => (holds.get (s.shardKey k c) c u).mono ?_
    intro _ _ h
    obtain ⟨rfl, rfl⟩ := h
    exact ⟨t, spread, spread.cells k c, rfl⟩
  deleteColumn k c t := by
    refine yields_behind fun u spread => (holds.deleteColumn (s.shardKey k c) c u).mono ?_
    intro _ _ h
    subst h
    exact ⟨_, spread.deleteColumn k c, rfl⟩
  values k t := by
    refine yields_behind fun u spread => (gather_scans holds k u s.shards.toNat 0 [] nofun).mono ?_
    intro vs _ h
    obtain ⟨⟨⟨_, all⟩, only⟩, rfl⟩ := h
    refine ⟨t, spread, ⟨fun {c v} hv => ?_, fun {v} hv => ?_⟩, rfl⟩
    · have inRange : s.shardOf c < 0 + s.shards.toNat := by
        rw [Nat.zero_add]
        exact Nat.mod_lt _ (Nat.pos_of_ne_zero fun e => positive (UInt64.toNat_inj.1 e))
      exact all _ (Nat.zero_le _) inRange ((spread.cells k c).trans hv)
    · obtain ⟨q, c, hq⟩ := only hv
      obtain ⟨l, rfl⟩ := spread.owned hq
      exact ⟨l, c, (spread.cells l c).symm.trans hq⟩

end Sharded

/-! ## Links -/

/-- what a linked store is built on: a table of links, the table behind them, and a number of keys that covers all drawn -/
structure Wires where
  links : Table Column
  inner : Table Column
  made : Nat

namespace Wires

/-- the tables of one store, the first -/
def only (t : Table Column) (i : Nat) : Table Column := if i = 0 then t else .empty

@[simp] theorem only_zero (t : Table Column) : only t 0 = t := rfl

@[simp] theorem update_only (t u : Table Column) : Function.update (only t) 0 u = only u := by
  funext i
  by_cases h : i = 0
  · subst h
    rw [Function.update_self, only_zero]
  · rw [Function.update_of_ne h, only, only, if_neg h, if_neg h]

/-- as a yard of one store -/
def yard (w : Wires) : Yard := { links := only w.links, shared := w.inner, made := w.made }

/-- the row that a key links to -/
def row (w : Wires) (k : Key) : Option Key := w.yard.row 0 k

/-- the table `t` lies behind the links -/
def Carries (fresh : Nat → Nat → Key) (w : Wires) (t : Table Column) : Prop :=
  Wired (fun _ => true) fresh w.yard (only t)

variable {fresh : Nat → Nat → Key} {w : Wires} {t : Table Column} {k q : Key}

theorem carries_empty : Carries fresh ⟨.empty, .empty, 0⟩ .empty := by
  have nothing : only .empty = fun _ => .empty := funext fun i => by simp [only]
  rw [Carries, yard, nothing]
  exact Wired.empty _ fresh

namespace Carries

theorem raise (h : w.Carries fresh t) {n : Nat} (le : w.made ≤ n) : Carries fresh { w with made := n } t :=
  { Wired.count h rfl with
    drawn := fun e => by
      obtain ⟨v, m, before, same⟩ := h.drawn e
      exact ⟨v, m, Nat.lt_of_lt_of_le before le, same⟩ }

/-- a link made with a key that has not been drawn before -/
theorem grow (h : w.Carries fresh t) (distinct : ∀ {v v' m n}, fresh v m = fresh v' n → m = n) (v : Nat)
    (unlinked : w.row k = none) :
    Carries fresh ⟨w.links.put k LinkTable.linkColumn (Utf8.encode (fresh v w.made)), w.inner, w.made + 1⟩ t := by
  have grown := Wired.grow h distinct v unlinked
  simp only [Yard.link, yard, only_zero, update_only] at grown
  exact grown

theorem cell (h : w.Carries fresh t) (there : w.row k = some q) (c : Column) : t.get k c = w.inner.get q c :=
  h.get_row rfl there c

/-- every cell behind the links is one of the table's -/
theorem owned (h : w.Carries fresh t) {c : Column} {v : Bytes} (found : w.inner.get q c = some v) :
    ∃ l, t.get l c = some v := by
  obtain ⟨i, l, there⟩ := h.covered found
  have cell : (only t i).get l c = some v := (h.get_row rfl there c).trans found
  by_cases first : i = 0
  · subst first
    exact ⟨l, cell⟩
  · rw [only, if_neg first, Table.get_empty] at cell
    cases cell

theorem put (h : w.Carries fresh t) (there : w.row k = some q) (c : Column) (v : Bytes) :
    Carries fresh { w with inner := w.inner.put q c v } (t.put k c v) := by
  have after := Wired.put h rfl there c v
  simp only [only_zero, update_only] at after
  exact after

theorem deleteColumn (h : w.Carries fresh t) (there : w.row k = some q) (c : Column) :
    Carries fresh { w with inner := w.inner.deleteColumn q c } (t.deleteColumn k c) := by
  have after : Wired (fun _ => true) fresh { w.yard with shared := w.inner.deleteColumn q c }
      (Function.update (only t) 0 (t.deleteColumn k c)) := by
    refine Wired.rewrite h rfl there (fun q' e c' => ?_) (fun l e c' => ?_) fun c' => ?_
    · exact (Table.get_deleteColumn ..).trans (if_neg fun here => e here.1)
    · exact (Table.get_deleteColumn ..).trans (if_neg fun here => e here.1)
    · rw [Table.get_deleteColumn, Table.get_deleteColumn, h.cell there]
      simp
  rw [update_only] at after
  exact after

end Carries

end Wires

namespace LinkTable

variable {τ : Type}

/-- what a linked store rests on: the links and the rows behind them hold cells, neither touches the other, and keys are
drawn in turn -/
structure Laws (l : LinkTable (Run τ)) (inner : Rows (Run τ)) (fresh : Nat → Nat → Key) (R : τ → Wires → Prop) : Prop where
  links : ∀ w : Wires, l.links.Holds fun s t => R s { w with links := t }
  inner : ∀ w : Wires, inner.Holds fun s t => R s { w with inner := t }
  draw : ∀ (v : Nat) (w : Wires), Yields R (l.freshKey v) w fun q x => ∃ n, w.made ≤ n ∧ q = fresh v n ∧ x = { w with made := n + 1 }

namespace Laws

variable {l : LinkTable (Run τ)} {inner : Rows (Run τ)} {fresh : Nat → Nat → Key} {R : τ → Wires → Prop} {w : Wires}
  {t : Table Column}

theorem lookup (laws : l.Laws inner fresh R) (carries : w.Carries fresh t) (k : Key) :
    Yields R (l.lookup k) w fun a x => a = w.row k ∧ x = w := by
  have read : Yields R (l.links.get k linkColumn) w fun a x => a = (w.row k).map Utf8.encode ∧ x = w := by
    refine Yields.widen (u := w.links) (fun t => { w with links := t }) (((laws.links w).get k linkColumn w.links).mono ?_)
    intro _ _ h
    obtain ⟨rfl, rfl⟩ := h
    exact ⟨carries.legible 0 k, rfl⟩
  refine read.next ?_
  cases w.row k with
  | none => exact yields_pure none ⟨rfl, rfl⟩
  | some q =>
    simp only [Option.map_some, Utf8.decode_encode]
    exact yields_pure (some q) ⟨rfl, rfl⟩

/-- **The row of a key is found**, or made if the key has none, and the table behind the links stays the same. -/
theorem resolve (laws : l.Laws inner fresh R) (distinct : ∀ {v v' m n}, fresh v m = fresh v' n → m = n)
    (carries : w.Carries fresh t) (k : Key) :
    Yields R (l.resolve k) w fun q x => x.row k = some q ∧ x.Carries fresh t := by
  refine (laws.lookup carries k).next ?_
  cases there : w.row k with
  | some q => exact yields_pure q ⟨there, carries⟩
  | none =>
    refine (laws.lookup carries k).next ?_
    rw [there]
    refine (laws.draw l.links.width w).bind ?_
    intro _ _ h
    obtain ⟨n, le, rfl, rfl⟩ := h
    have grown := (carries.raise le).grow (k := k) distinct l.links.width there
    have linked : Yields R (l.link k (fresh l.links.width n)) { w with made := n + 1 } fun _ x =>
        x = ⟨w.links.put k linkColumn (Utf8.encode (fresh l.links.width n)), w.inner, n + 1⟩ := by
      refine Yields.widen (R := R) (u := w.links) (fun t => Wires.mk t w.inner (n + 1))
        (((laws.links { w with made := n + 1 }).put k linkColumn _ w.links).mono ?_)
      intro _ _ h
      subst h
      rfl
    refine linked.step (yields_pure _ ⟨?_, grown⟩)
    rw [Wires.row, Yard.row, Yard.text]
    simp [Wires.yard, Table.get_put, Except.toOption]

/-- a call that goes to the row behind a key -/
theorem call {α : Type} (laws : l.Laws inner fresh R) (distinct : ∀ {v v' m n}, fresh v m = fresh v' n → m = n) (k : Key)
    {f : Key → Run τ α} {Q : α → Table Column → Prop}
    (h : ∀ (w : Wires) q, w.row k = some q → w.Carries fresh t → Yields (fun s u => R s { w with inner := u }) (f q) w.inner
      fun a u => ∃ t', Wires.Carries fresh { w with inner := u } t' ∧ Q a t') :
    Yields (fun s t => ∃ w, R s w ∧ w.Carries fresh t) (l.resolve k >>= f) t Q := by
  refine yields_behind fun w carries => (laws.resolve distinct carries k).bind ?_
  intro q x hx
  obtain ⟨there, carries⟩ := hx
  exact Yields.widen (R := R) (u := x.inner) (P := fun a x => ∃ t', x.Carries fresh t' ∧ Q a t')
    (fun u => { x with inner := u }) (h x q there carries)

end Laws

/-- **A linked store holds the cells behind its links.** -/
theorem rows_hold {l : LinkTable (Run τ)} {inner : Rows (Run τ)} {fresh : Nat → Nat → Key} {R : τ → Wires → Prop}
    (laws : l.Laws inner fresh R) (distinct : ∀ {v w m n}, fresh v m = fresh w n → m = n) :
    (l.rows inner).Holds fun s t => ∃ w, R s w ∧ w.Carries fresh t where
  put k c v t := by
    refine laws.call distinct k fun w q there carries => ((laws.inner w).put q c v w.inner).mono ?_
    intro _ _ h
    subst h
    exact ⟨_, carries.put there c v, rfl⟩
  get k c t := by
    refine laws.call distinct k fun w q there carries => ((laws.inner w).get q c w.inner).mono ?_
    intro _ _ h
    obtain ⟨rfl, rfl⟩ := h
    exact ⟨t, carries, (carries.cell there c).symm, rfl⟩
  deleteColumn k c t := by
    refine laws.call distinct k fun w q there carries => ((laws.inner w).deleteColumn q c w.inner).mono ?_
    intro _ _ h
    subst h
    exact ⟨_, carries.deleteColumn there c, rfl⟩
  values k t := by
    refine laws.call distinct k fun w q there carries => ((laws.inner w).values q w.inner).mono ?_
    intro vs _ h
    obtain ⟨scans, rfl⟩ := h
    refine ⟨t, carries, ⟨fun {c v} hv => scans.all ((carries.cell there c).symm.trans hv), fun {v} hv => ?_⟩, rfl⟩
    obtain ⟨q', c, found⟩ := scans.only hv
    obtain ⟨k', cell⟩ := carries.owned found
    exact ⟨k', c, cell⟩

end LinkTable

end RowFiles
