/-
What each call does to a lock, told by what contenders see of it: the cells of the lock's row, the time, and who thinks he
owns the lock (`Scene`).

The stores may refuse calls without effect (`Contest.Fallible`), so every phase is told twice: what it has done if it ends
well, and what it may have done where it stops.

- `Fallible.canBid`, `Fallible.register`, `Fallible.resolve`, `Fallible.close`: one theorem for each phase.
- `Fallible.alone`: an attempt with time between its phases, while nobody else does anything.
-/
import RowFiles.Proofs.Lock.Arena

namespace RowFiles

open Run

/-! ## State cells -/

namespace LockState

@[simp] theorem ofByte_toByte (st : LockState) : ofByte st.toByte = st := by
  cases st <;> rfl

@[simp] theorem writtenAt_cell (st : LockState) (time : UInt64) : writtenAt (st.cell time) = time := by
  simp [writtenAt, cell]

end LockState

/-! ## Scenes -/

/-- what contenders see of a lock -/
structure Scene (ι : Type) where
  /-- the cells of the lock's row -/
  row : Column → Option Bytes
  owned : ι → Bool
  clock : UInt64

namespace Scene

variable {ι : Type} (x : Scene ι)

def put (c : Column) (u : Bytes) : Scene ι := { x with row := Function.update x.row c (some u) }

def drop (c : Column) : Scene ι := { x with row := Function.update x.row c none }

/-- several cells are gone -/
def without (cs : List Column) : Scene ι := { x with row := fun c => if c ∈ cs then none else x.row c }

def putState (st : LockState) : Scene ι := x.put Lock.stateColumn (st.cell x.clock)

def setOwned [DecidableEq ι] (i : ι) (yes : Bool) : Scene ι := { x with owned := Function.update x.owned i yes }

def atTime (time : UInt64) : Scene ι := { x with clock := time }

/-- some cell of the row is this bid -/
def Bids (b : Bid) : Prop := ∃ c u, x.row c = some u ∧ Bid.ofCell? u = some b

/-- what the state cell says; without one the lock is free -/
def state : LockState :=
  match x.row Lock.stateColumn with
  | none | some [] => .unlocked
  | some (byte :: _) => .ofByte byte

/-- when the state cell was written -/
def written : UInt64 := ((x.row Lock.stateColumn).map LockState.writtenAt).getD 0

theorem row_put (c c' : Column) (u : Bytes) : (x.put c u).row c' = if c' = c then some u else x.row c' :=
  Function.update_apply ..

theorem row_drop (c c' : Column) : (x.drop c).row c' = if c' = c then none else x.row c' :=
  Function.update_apply ..

theorem without_nil : x.without [] = x := by
  simp [without]

theorem drop_without (c : Column) (cs : List Column) : (x.drop c).without cs = x.without (c :: cs) := by
  simp only [without, drop, Scene.mk.injEq, and_true]
  funext c'
  simp only [Function.update_apply, List.mem_cons]
  by_cases h : c' ∈ cs
  · simp [h]
  · simp [h]

@[simp] theorem owned_drop (c : Column) : (x.drop c).owned = x.owned := rfl

theorem state_congr {x y : Scene ι} (h : y.row Lock.stateColumn = x.row Lock.stateColumn) : y.state = x.state := by
  rw [state, state, h]

theorem written_congr {x y : Scene ι} (h : y.row Lock.stateColumn = x.row Lock.stateColumn) : y.written = x.written := by
  rw [written, written, h]

@[simp] theorem row_setOwned [DecidableEq ι] (i : ι) (yes : Bool) : (x.setOwned i yes).row = x.row := rfl
@[simp] theorem state_setOwned [DecidableEq ι] (i : ι) (yes : Bool) : (x.setOwned i yes).state = x.state := rfl

variable {c : Column} (hc : c ≠ Lock.stateColumn)

include hc

theorem row_put_state (u : Bytes) : (x.put c u).row Lock.stateColumn = x.row Lock.stateColumn :=
  (x.row_put ..).trans (if_neg hc.symm)

theorem row_drop_state : (x.drop c).row Lock.stateColumn = x.row Lock.stateColumn :=
  (x.row_drop ..).trans (if_neg hc.symm)

theorem state_put (u : Bytes) : (x.put c u).state = x.state := state_congr (x.row_put_state hc u)

theorem state_drop : (x.drop c).state = x.state := state_congr (x.row_drop_state hc)

omit hc

theorem row_putState (st : LockState) : (x.putState st).row Lock.stateColumn = some (st.cell x.clock) :=
  (x.row_put ..).trans (if_pos rfl)

@[simp] theorem state_putState (st : LockState) : (x.putState st).state = st := by
  rw [state, row_putState, LockState.cell]
  exact LockState.ofByte_toByte st

@[simp] theorem written_putState (st : LockState) : (x.putState st).written = x.clock := by
  rw [written, row_putState]
  exact LockState.writtenAt_cell st x.clock

end Scene

/-- the stores of an arena serve tables, and the row of the lock has the cells of the scene -/
structure Arena.Sets {τ μ ι : Type} (D : τ → Table Column → Prop) (N : μ → Table Column → Prop) (k : Key)
    (s : Arena τ μ ι) (x : Scene ι) : Prop where
  data : ∃ t, D s.data t ∧ ∀ c, t.get k c = x.row c
  names : ∃ m, N s.names m
  clock : s.clock = x.clock
  owned : s.owned = x.owned

namespace Contest

variable {τ μ ι : Type} (g : Contest τ μ ι)

/-- the stores serve tables; calls may fail without effect if the stores are flaky -/
structure Fallible (flaky : Prop) (D : τ → Table Column → Prop) (N : μ → Table Column → Prop) : Prop where
  data : g.data.Serves D List.Perm fun _ => flaky
  dataTrims : g.data.Trims D fun _ => flaky
  names : g.names.Serves N List.Perm fun _ => flaky
  namesTrims : g.names.Trims N fun _ => flaky

variable {g} {flaky : Prop} {D : τ → Table Column → Prop} {N : μ → Table Column → Prop}

theorem Reliable.fallible (rel : g.Reliable D N) : g.Fallible False D N :=
  ⟨rel.data, rel.dataTrims, rel.names, rel.namesTrims⟩

/-! ## Calls -/

section Calls

variable {α : Type} (x : Scene ι)

/-- a call about the lock's row changes nothing else -/
theorem row_call {P : α → (Column → Option Bytes) → Prop} {call : Run τ α}
    (h : ∀ t, (∀ c, t.get g.name c = x.row c) → Tries D call t flaky fun a u => P a (u.get g.name)) :
    Tries (Arena.Sets D N g.name) (within Arena.data (fun t s => { s with data := t }) call) x flaky
      fun a y => ∃ row, P a row ∧ y = { x with row := row } := by
  intro s hs
  obtain ⟨t, ht, row⟩ := hs.data
  obtain ⟨u, hu, ⟨a, ha, hp⟩ | ⟨hm, he, rfl⟩⟩ := h t row s.data ht
  · exact ⟨{ x with row := u.get g.name }, ⟨⟨u, hu, fun _ => rfl⟩, hs.names, hs.clock, hs.owned⟩, .inl ⟨a, ha, _, hp, rfl⟩⟩
  · exact ⟨x, ⟨⟨u, hu, row⟩, hs.names, hs.clock, hs.owned⟩, .inr ⟨hm, he, rfl⟩⟩

/-- a call of the store beneath the catalogs is not seen -/
theorem unseen_call {P : Table Column → α → Table Column → Prop} {call : Run μ α}
    (h : ∀ m, Tries N call m flaky (P m)) :
    Tries (Arena.Sets D N g.name) (within Arena.names (fun m s => { s with names := m }) call) x flaky
      fun _ y => y = x := by
  intro s hs
  obtain ⟨m, hm⟩ := hs.names
  obtain ⟨m', hm', ended⟩ := h m s.names hm
  refine ⟨x, ⟨hs.data, ⟨m', hm'⟩, hs.clock, hs.owned⟩, ?_⟩
  rcases ended with ⟨a, ha, _⟩ | ⟨may, he, _⟩
  · exact .inl ⟨a, ha, rfl⟩
  · exact .inr ⟨may, he, rfl⟩

/-- nor is what a catalog keeps in memory -/
theorem unseen_modify (p : Nat) (f : CatalogState → CatalogState) :
    Yields (Arena.Sets D N g.name) ((g.catalog (ι := ι) p).state.modify f) x fun _ y => y = x :=
  fun _ hs => ⟨x, ⟨hs.data, hs.names, hs.clock, hs.owned⟩, (), rfl, rfl⟩

section

variable [DecidableEq ι] (i : ι)

theorem reads_clock : Yields (Arena.Sets D N g.name) (g.lock i).now x fun time y => time = x.clock ∧ y = x :=
  fun s hs => ⟨x, hs, s.clock, rfl, hs.clock, rfl⟩

theorem reads_owned : Yields (Arena.Sets D N g.name) (g.lock i).owned.read x fun yes y => yes = x.owned i ∧ y = x :=
  fun s hs => ⟨x, hs, s.owned i, rfl, congrFun hs.owned i, rfl⟩

theorem sets_owned (yes : Bool) : Yields (Arena.Sets D N g.name) ((g.lock i).owned.write yes) x
    fun _ y => y = x.setOwned i yes := by
  intro s hs
  have same : Function.update s.owned i yes = (x.setOwned i yes).owned := by rw [hs.owned]; rfl
  exact ⟨x.setOwned i yes, ⟨hs.data, hs.names, hs.clock, same⟩, (), rfl, rfl⟩

end

variable (serves : g.Fallible flaky D N)

include serves

namespace Fallible

/-- a committed length is not seen -/
theorem setLength (p : Nat) (k : Key) (n : UInt64) :
    Tries (Arena.Sets D N g.name) ((g.catalog (ι := ι) p).setLength k n true) x flaky fun _ y => y = x := by
  have unseen (k c u) : Tries (Arena.Sets D N g.name) ((g.catalog (ι := ι) p).rows.put k c u) x flaky fun _ y => y = x :=
    unseen_call x (serves.names.put k c u)
  refine (unseen_modify x p _).step ?_
  refine Stops.bind ((unseen _ _ _).step (unseen _ _ _) rfl) (fun _ y h => ?_) fun _ h => h
  subst h
  exact (unseen_modify y p _).tries

/-- nor is that a file is forgotten -/
theorem forget (p : Nat) (k : Key) :
    Tries (Arena.Sets D N g.name) ((g.catalog (ι := ι) p).delete k) x flaky fun _ y => y = x := by
  refine (unseen_modify x p _).step ?_
  exact (unseen_call x (serves.names.delete _)).step (unseen_call x (serves.namesTrims _ _)) rfl

variable [DecidableEq ι] (i : ι)

theorem get (c : Column) : Tries (Arena.Sets D N g.name) ((g.lock i).rows.get g.name c) x flaky
    fun a y => a = x.row c ∧ y = x := by
  refine (row_call (P := fun a row => a = x.row c ∧ row = x.row) x fun t row => ?_).mono ?_
  · refine (serves.data.get g.name c t).mono fun a u h => ?_
    obtain ⟨rfl, rfl⟩ := h
    exact ⟨row c, funext row⟩
  · rintro a y ⟨row, ⟨rfl, rfl⟩, rfl⟩
    exact ⟨rfl, rfl⟩

theorem put (c : Column) (u : Bytes) : Tries (Arena.Sets D N g.name) ((g.lock i).rows.put g.name c u) x flaky
    fun _ y => y = x.put c u := by
  refine (row_call (P := fun _ row => row = (x.put c u).row) x fun t row => ?_).mono ?_
  · refine (serves.data.put g.name c u t).mono fun _ t' h => ?_
    subst h
    funext c'
    rw [Table.get_put, Scene.row_put, row]
    simp [eq_comm]
  · rintro _ y ⟨row, rfl, rfl⟩
    rfl

theorem deleteColumn (c : Column) : Tries (Arena.Sets D N g.name) ((g.lock i).rows.deleteColumn g.name c) x flaky
    fun _ y => y = x.drop c := by
  refine (row_call (P := fun _ row => row = (x.drop c).row) x fun t row => ?_).mono ?_
  · refine (serves.dataTrims g.name c t).mono fun _ t' h => ?_
    subst h
    funext c'
    rw [Table.get_deleteColumn, Scene.row_drop, row]
    simp [eq_comm]
  · rintro _ y ⟨row, rfl, rfl⟩
    rfl

/-- the bids that are found are those of the row's cells -/
theorem bids : Tries (Arena.Sets D N g.name) (g.lock i).bids x flaky
    fun bs y => (∀ b, b ∈ bs ↔ x.Bids b) ∧ y = x := by
  have values : Tries (Arena.Sets D N g.name) ((g.lock i).rows.values g.name) x flaky fun us y =>
      (∀ u, u ∈ us ↔ ∃ c, x.row c = some u) ∧ y = x := by
    refine (row_call (P := fun us row => (∀ u, u ∈ us ↔ ∃ c, x.row c = some u) ∧ row = x.row) x fun t row => ?_).mono ?_
    · refine (serves.data.values g.name t).mono fun us t' h => ?_
      obtain ⟨perm, rfl⟩ := h
      refine ⟨fun u => ?_, funext row⟩
      rw [perm.mem_iff, Table.mem_values]
      simp only [row]
    · rintro us y ⟨row, ⟨found, rfl⟩, rfl⟩
      exact ⟨found, rfl⟩
  refine Ends.map (Ends.mono values fun o y h => ?_)
  rcases h with ⟨us, rfl, found, rfl⟩ | ⟨may, ⟨e, rfl⟩, rfl⟩
  · refine .inl ⟨_, rfl, fun b => ?_, rfl⟩
    simp only [List.mem_filterMap, found, Scene.Bids]
    constructor
    · rintro ⟨u, ⟨c, hc⟩, hb⟩
      exact ⟨c, u, hc, hb⟩
    · rintro ⟨c, u, hc, hb⟩
      exact ⟨u, ⟨c, hc⟩, hb⟩
  · exact .inr ⟨may, ⟨e, rfl⟩, rfl⟩

/-- the state is written with the present time -/
theorem writeState (st : LockState) : Tries (Arena.Sets D N g.name) ((g.lock i).writeState st) x flaky
    fun _ y => y = x.putState st :=
  (reads_clock x i).next (serves.put x i _ _)

end Fallible

end Calls

end Contest

/-! ## Phases -/

namespace Scene

section

variable {ι : Type} (x : Scene ι)

/-- what asking whether the lock is free answers and leaves -/
inductive Asked (expiry : Option Duration) : Bool → Scene ι → Prop
  | free (unlocked : x.state = .unlocked) : Asked expiry true x
  | held (locked : x.state = .locked) : Asked expiry false x
  /-- the round is not abandoned yet -/
  | early (trying : x.state = .trying) (young : ∀ d, expiry = some d → elapsed x.clock x.written < d.age) :
    Asked expiry false x
  /-- a late bidder has overwritten that the lock is held -/
  | restored (trying : x.state = .trying) (owner : ∃ b, x.Bids b ∧ b.owned = true) :
    Asked expiry false (x.putState .locked)
  /-- the bids of an abandoned round are removed -/
  | cleared (trying : x.state = .trying) (free : ∀ b, x.Bids b → b.owned = false) (cs : List Column)
    (bids : ∀ b, x.Bids b → b.signature ∈ cs) : Asked expiry true (x.without cs)

/-- what it leaves where it stops -/
inductive Unasked : Scene ι → Prop
  | untouched : Unasked x
  | clearing (free : ∀ b, x.Bids b → b.owned = false) (cs : List Column) : Unasked (x.without cs)

/-- the state is written, then the bid of the signature -/
def enter (g : UInt64) : Scene ι := (x.putState .trying).put g (Bid.openCell g)

/-- what resolving answers and leaves -/
inductive Resolved [DecidableEq ι] (i : ι) (g : UInt64) : Bool → Scene ι → Prop
  | beaten (rival : ∃ b, x.Bids b ∧ b.owned = true ∧ b.signature ≠ g) : Resolved i g false ((x.drop g).putState .locked)
  | outbid (free : ∀ b, x.Bids b → b.owned = true → b.signature = g)
    (larger : (∃ b, x.Bids b ∧ b.signature = g) → ∃ b, x.Bids b ∧ g.toNat < b.signature.toNat) :
    Resolved i g false (x.drop g)
  | won (free : ∀ b, x.Bids b → b.owned = true → b.signature = g)
    (largest : ∀ b, x.Bids b → b.signature.toNat ≤ g.toNat) :
    Resolved i g true (((x.put g (Bid.ownedCell g x.clock)).putState .locked).setOwned i true)

/-- what it leaves where it stops -/
inductive Unresolved (g : UInt64) : Scene ι → Prop
  | untouched : Unresolved g x
  | withdrawn (rival : ∃ b, x.Bids b ∧ b.owned = true ∧ b.signature ≠ g) : Unresolved g (x.drop g)
  /-- the bid has won, but the handle does not know -/
  | unaware {y : Scene ι} (time : UInt64) (won : y.row g = some (Bid.ownedCell g time)) : Unresolved g y

/-- what a close leaves -/
def closed [DecidableEq ι] (i : ι) (g : UInt64) : Scene ι :=
  if x.owned i then ((x.drop g).drop Lock.stateColumn).setOwned i false else x.drop g

/-- what it leaves where it stops; only an owner's close makes more than one call -/
inductive Unclosed (i : ι) (g : UInt64) : Scene ι → Prop
  | untouched : Unclosed i g x
  | stillHeld (own : x.owned i = true) : Unclosed i g (x.drop g)
  | stillRecorded (own : x.owned i = true) : Unclosed i g ((x.drop g).drop Lock.stateColumn)

end

end Scene

namespace Contest

variable {τ μ ι : Type} {g : Contest τ μ ι} {flaky : Prop} {D : τ → Table Column → Prop} {N : μ → Table Column → Prop}
  [DecidableEq ι]

namespace Fallible

variable (serves : g.Fallible flaky D N) (i : ι) (x : Scene ι)

include serves

/-- bids are removed one by one -/
theorem removeBids (bs : List Bid) : Stops (Arena.Sets D N g.name) ((g.lock i).removeBids bs) x flaky
    (fun _ y => y = x.without (bs.map Bid.signature)) fun y => ∃ cs, y = x.without cs := by
  induction bs generalizing x with
  | nil => exact stops_pure () x.without_nil.symm
  | cons b bs ih =>
    refine (serves.deleteColumn x i b.signature).step ?_ ⟨[], x.without_nil.symm⟩
    refine (ih _).mono (fun _ y h => ?_) fun y h => ?_
    · rw [h, Scene.drop_without]
      rfl
    · obtain ⟨cs, rfl⟩ := h
      exact ⟨_, x.drop_without _ _⟩

theorem clearStaleBids (expiry : Option Duration) (trying : x.state = .trying) :
    Stops (Arena.Sets D N g.name) (g.lock i).clearStaleBids x flaky (x.Asked expiry) x.Unasked := by
  refine (serves.bids x i).stops (fun bs y h => ?_) .untouched
  obtain ⟨mem, rfl⟩ := h
  split_ifs with someOwned
  · obtain ⟨b, hb, owned⟩ := List.any_eq_true.1 someOwned
    refine (serves.writeState y i .locked).step ?_ .untouched
    exact stops_pure false (.restored trying ⟨b, (mem b).1 hb, owned⟩)
  · have free : ∀ b, y.Bids b → b.owned = false := fun b hb => by
      by_contra owned
      exact someOwned (List.any_eq_true.2 ⟨b, (mem b).2 hb, by simpa using owned⟩)
    refine (serves.removeBids i y bs).bind (fun _ z h => ?_) fun z h => ?_
    · subst h
      exact stops_pure true (.cleared trying free _ fun b hb => List.mem_map_of_mem ((mem b).2 hb))
    · obtain ⟨cs, rfl⟩ := h
      exact .clearing free cs

/-- **What asking does.** -/
theorem canBid : Stops (Arena.Sets D N g.name) (g.lock i).canBid x flaky (x.Asked (g.contender i).expiry) x.Unasked := by
  refine (serves.get x i Lock.stateColumn).stops (fun cell y h => ?_) .untouched
  obtain ⟨rfl, rfl⟩ := h
  split
  · rename_i absent
    exact stops_pure true (.free (by rw [Scene.state, absent]))
  · rename_i empty
    exact stops_pure true (.free (by rw [Scene.state, empty]))
  · rename_i byte rest cell
    have state : y.state = .ofByte byte := by rw [Scene.state, cell]
    split
    · rename_i unlocked
      exact stops_pure true (.free (state.trans unlocked))
    · rename_i locked
      exact stops_pure false (.held (state.trans locked))
    · rename_i trying
      replace trying := state.trans trying
      split
      · rename_i never
        refine stops_pure false (.early trying fun d hd => ?_)
        exact absurd (never.symm.trans hd) nofun
      · rename_i expiry some
        refine (reads_clock y i).stops fun time z h => ?_
        obtain ⟨rfl, rfl⟩ := h
        have written : z.written = LockState.writtenAt (byte :: rest) := by rw [Scene.written, cell]; rfl
        dsimp only
        split_ifs with young
        · refine stops_pure false (.early trying fun d hd => ?_)
          obtain rfl := Option.some.inj (some.symm.trans hd)
          rw [written]
          exact young
        · exact serves.clearStaleBids i z _ trying

/-- **What bidding does.** -/
theorem register : Stops (Arena.Sets D N g.name) (g.lock i).register x flaky
    (fun _ y => y = x.enter (g.signature i)) fun y => y = x ∨ y = x.putState .trying := by
  refine (serves.writeState x i .trying).step ?_ (.inl rfl)
  exact (serves.put _ i _ _).last (.inr rfl)

/-- **What resolving does.** -/
theorem resolve : Stops (Arena.Sets D N g.name) (g.lock i).resolve x flaky (x.Resolved i (g.signature i))
    (x.Unresolved (g.signature i)) := by
  refine (serves.bids x i).stops (fun bs y h => ?_) .untouched
  obtain ⟨mem, rfl⟩ := h
  split_ifs with someRival notLargest
  · obtain ⟨b, hb, rival⟩ := List.any_eq_true.1 someRival
    rw [Bool.and_eq_true, decide_eq_true_eq] at rival
    have rival : ∃ b, y.Bids b ∧ b.owned = true ∧ b.signature ≠ g.signature i := ⟨b, (mem b).1 hb, rival⟩
    refine (serves.deleteColumn y i _).step ?_ .untouched
    refine (serves.writeState _ i .locked).step ?_ (.withdrawn rival)
    exact stops_pure false (.beaten rival)
  all_goals
    have free : ∀ b, y.Bids b → b.owned = true → b.signature = g.signature i := fun b hb owned => by
      by_contra other
      refine someRival (List.any_eq_true.2 ⟨b, (mem b).2 hb, ?_⟩)
      rw [owned]
      exact decide_eq_true other
  · refine (serves.deleteColumn y i _).step ?_ .untouched
    refine stops_pure false (.outbid free fun mine => ?_)
    obtain ⟨b, hb, own⟩ := mine
    by_contra none
    refine notLargest ((Bid.highest_eq ((mem b).2 hb) fun c hc => ?_).trans (congrArg some own))
    by_contra larger
    refine none ⟨c, (mem c).1 hc, ?_⟩
    rw [own] at larger
    exact Nat.lt_of_not_le larger
  · have largest : ∀ b, y.Bids b → b.signature.toNat ≤ (g.signature i).toNat := fun b hb => by
      obtain ⟨s, highest, le⟩ := Bid.le_highest ((mem b).2 hb)
      obtain rfl := Option.some.inj (highest.symm.trans (not_not.1 notLargest))
      exact le
    refine (reads_clock y i).stops fun time z h => ?_
    obtain ⟨rfl, rfl⟩ := h
    have bid : (z.put (g.signature i) (Bid.ownedCell (g.signature i) z.clock)).row (g.signature i) =
        some (Bid.ownedCell (g.signature i) z.clock) := (z.row_put ..).trans (if_pos rfl)
    have kept : ((z.put (g.signature i) (Bid.ownedCell (g.signature i) z.clock)).putState .locked).row (g.signature i) =
        some (Bid.ownedCell (g.signature i) z.clock) :=
      (Scene.row_put ..).trans ((if_neg (g.signature_ne_zero i)).trans bid)
    refine (serves.put z i _ _).step ?_ .untouched
    refine (serves.writeState _ i .locked).step ?_ (.unaware _ bid)
    refine (serves.setLength _ _ _ _).step ?_ (.unaware _ kept)
    refine (sets_owned _ i true).stops fun _ w h => ?_
    subst h
    exact stops_pure true (.won free largest)

/-- **What closing does.** -/
theorem close : Stops (Arena.Sets D N g.name) (g.lock i).close x flaky (fun _ y => y = x.closed i (g.signature i))
    (x.Unclosed i (g.signature i)) := by
  refine (serves.deleteColumn x i _).step ?_ .untouched
  refine (reads_owned _ i).stops fun yes y h => ?_
  obtain ⟨rfl, rfl⟩ := h
  by_cases own : x.owned i = true
  · rw [Scene.owned_drop, if_pos own, Scene.closed, if_pos own]
    refine (serves.deleteColumn _ i _).step ?_ (.stillHeld own)
    refine (serves.forget _ _ _).step ?_ (.stillRecorded own)
    exact (sets_owned _ i false).tries.last (.stillRecorded own)
  · rw [Scene.owned_drop, if_neg own, Scene.closed, if_neg own]
    exact stops_pure () rfl

end Fallible

end Contest

/-! ## Attempts -/

/-- the times of an attempt; the clock need not move while it lasts -/
structure Attempt where
  asked : UInt64
  bid : Option UInt64 := none
  settled : Option UInt64 := none

/-- the attempt begins now or later, and the clock does not go back while it lasts -/
structure Attempt.Follows (a : Attempt) (now : UInt64) : Prop where
  asked : now ≤ a.asked
  bid : ∀ t, a.bid = some t → a.asked ≤ t
  settled : ∀ t, a.settled = some t → a.bid.getD a.asked ≤ t

/-- as long as the clock is not moved, nothing changes -/
def Scene.pass {ι : Type} (x : Scene ι) (time : Option UInt64) : Scene ι := x.atTime (time.getD x.clock)

namespace Contest

variable {τ μ ι : Type}

def setClock (time : UInt64) : Run (Arena τ μ ι) Unit :=
  (Run.part Arena.clock fun time s => { s with clock := time }).write time

/-- the clock may be moved -/
def pass (time : Option UInt64) : Run (Arena τ μ ι) Unit := time.elim (pure ()) setClock

variable [DecidableEq ι]

/-- an attempt while nobody else does anything -/
def alone (g : Contest τ μ ι) (i : ι) (a : Attempt) : Run (Arena τ μ ι) Bool := do
  setClock a.asked
  (g.lock i).obtainWhile (pass a.bid) (pass a.settled)

/-- one that takes no time is a plain attempt -/
theorem alone_at_once (g : Contest τ μ ι) (i : ι) (time : UInt64) :
    g.alone i { asked := time } = (do setClock time; (g.lock i).obtain) := rfl

/-- what an attempt answers and leaves -/
inductive Attempted (g : Contest τ μ ι) (i : ι) (a : Attempt) (x : Scene ι) : Bool → Scene ι → Prop
  | owner (own : x.owned i = true) : Attempted g i a x true (x.atTime a.asked)
  | refused {y : Scene ι} (free : x.owned i = false)
    (asked : (x.atTime a.asked).Asked (g.contender i).expiry false y) : Attempted g i a x false y
  | decided {y z : Scene ι} {yes : Bool} (free : x.owned i = false)
    (asked : (x.atTime a.asked).Asked (g.contender i).expiry true y)
    (resolved : (((y.pass a.bid).enter (g.signature i)).pass a.settled).Resolved i (g.signature i) yes z) :
    Attempted g i a x yes z

/-- what it leaves where it stops -/
inductive Unattempted (g : Contest τ μ ι) (i : ι) (a : Attempt) (x : Scene ι) : Scene ι → Prop
  | asking {y : Scene ι} (free : x.owned i = false) (stopped : (x.atTime a.asked).Unasked y) : Unattempted g i a x y
  | bidding {y : Scene ι} (free : x.owned i = false)
    (asked : (x.atTime a.asked).Asked (g.contender i).expiry true y) : Unattempted g i a x (y.pass a.bid)
  | entering {y : Scene ι} (free : x.owned i = false)
    (asked : (x.atTime a.asked).Asked (g.contender i).expiry true y) :
    Unattempted g i a x ((y.pass a.bid).putState .trying)
  | resolving {y z : Scene ι} (free : x.owned i = false)
    (asked : (x.atTime a.asked).Asked (g.contender i).expiry true y)
    (stopped : (((y.pass a.bid).enter (g.signature i)).pass a.settled).Unresolved (g.signature i) z) :
    Unattempted g i a x z

variable {g : Contest τ μ ι} {flaky : Prop} {D : τ → Table Column → Prop} {N : μ → Table Column → Prop}

omit [DecidableEq ι] in
theorem sets_clock (x : Scene ι) (time : UInt64) :
    Yields (Arena.Sets D N g.name) (setClock time) x fun _ y => y = x.atTime time :=
  fun _ hs => ⟨x.atTime time, ⟨hs.data, hs.names, rfl, hs.owned⟩, (), rfl, rfl⟩

omit [DecidableEq ι] in
theorem passes (x : Scene ι) (time : Option UInt64) :
    Yields (Arena.Sets D N g.name) (pass time) x fun _ y => y = x.pass time := by
  cases time with
  | none => exact yields_pure () rfl
  | some time => exact sets_clock x time

/-- **What an attempt does**, while nobody else does anything. -/
theorem Fallible.alone (serves : g.Fallible flaky D N) (i : ι) (a : Attempt) (x : Scene ι) :
    Stops (Arena.Sets D N g.name) (g.alone i a) x flaky (g.Attempted i a x) (g.Unattempted i a x) := by
  refine (sets_clock x a.asked).stops fun _ y h => ?_
  subst h
  refine (reads_owned _ i).stops fun yes y h => ?_
  obtain ⟨rfl, rfl⟩ := h
  split_ifs with own
  · exact stops_pure true (.owner own)
  replace own : x.owned i = false := eq_false_of_ne_true own
  refine (serves.canBid i _).bind (fun yes y asked => ?_) fun y stopped => .asking own stopped
  cases yes with
  | false => exact stops_pure false (.refused own asked)
  | true =>
    refine (passes y a.bid).stops fun _ z h => ?_
    subst h
    refine (serves.register i _).bind (fun _ z h => ?_) fun z h => ?_
    · subst h
      refine (passes _ a.settled).stops fun _ w h => ?_
      subst h
      exact (serves.resolve i _).mono (fun _ _ => .decided own asked) fun _ => .resolving own asked
    · rcases h with rfl | rfl
      · exact .bidding own asked
      · exact .entering own asked

end Contest

end RowFiles
