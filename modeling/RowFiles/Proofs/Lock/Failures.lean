/-
Locks in stores that refuse calls: what contenders leave behind once all of them have closed.

Whole attempts and releases come one after another, and any call of either store may be refused without effect
(`Flaky`). A contender may call again after a failure or not, and the clock may be moved to any time.

- `Contest.Strands`: an attempt may fail after its bid has won. The handle does not know that it owns the lock, so its
  close takes back the bid and leaves the lock held.
- `no_lock_is_stuck`: if that never happens, then whenever the latest call of everybody was a close that ended well, no bid
  is left, the lock does not read as held, and anybody takes it, at the latest an expiry period after its state was written.
- `stuck_lock`: if it happens, the lock stays held with no owner.
-/
import RowFiles.Proofs.Lock.Recovery

namespace RowFiles

open Run

/-! ## Stores that refuse calls -/

/-- a store, and which of the next calls it refuses; once none are listed, it refuses nothing -/
structure Flaky (σ : Type) where
  store : σ
  refusals : List (Option Error) := []

namespace Flaky

variable {σ : Type}

def ask (_ : Call) : Run (Flaky σ) Unit := fun s =>
  match s.refusals with
  | [] => (.ok (), s)
  | none :: rest => (.ok (), { s with refusals := rest })
  | some e :: rest => (.error e, { s with refusals := rest })

def rows (r : Rows (Run σ)) : Rows (Run (Flaky σ)) := (r.within Flaky.store fun t s => { s with store := t }).guarded ask

/-- the store shows a table; if it is calm, it refuses nothing from now on -/
def Shows (S : σ → Table Column → Prop) (calm : Prop) (s : Flaky σ) (t : Table Column) : Prop :=
  S s.store t ∧ (calm → s.refusals = [])

variable {S : σ → Table Column → Prop} {calm : Prop} {r : Rows (Run σ)}

theorem ask_tries (q : Call) (t : Table Column) : Tries (Shows S calm) (ask q) t (¬ calm) fun _ u => u = t := by
  intro s hs
  obtain ⟨shows, quiet⟩ := hs
  unfold ask
  rcases e : s.refusals with _ | ⟨_ | err, rest⟩
  · exact ⟨t, ⟨shows, quiet⟩, .inl ⟨(), rfl, rfl⟩⟩
  · exact ⟨t, ⟨shows, fun c => absurd (e.symm.trans (quiet c)) nofun⟩, .inl ⟨(), rfl, rfl⟩⟩
  · have restless : ¬ calm := fun c => absurd (e.symm.trans (quiet c)) nofun
    exact ⟨t, ⟨shows, fun c => absurd c restless⟩, .inr ⟨restless, ⟨err, rfl⟩, rfl⟩⟩

theorem serves {scan : List Bytes → List Bytes → Prop} (h : r.Serves S scan never) :
    (rows r).Serves (Shows S calm) scan fun _ => ¬ calm :=
  ((h.within (fun _ _ hs => hs.1) fun _ _ _ _ hs ht => ⟨ht, hs.2⟩).failing_mono fun _ => False.elim).guarded ask_tries

theorem trims (h : r.Trims S never) : (rows r).Trims (Shows S calm) fun _ => ¬ calm :=
  ((h.within (fun _ _ hs => hs.1) fun _ _ _ _ hs ht => ⟨ht, hs.2⟩).failing_mono fun _ => False.elim).guarded ask_tries

end Flaky

namespace Contest

variable {τ μ ι : Type} {g : Contest τ μ ι}

/-- the same contest over stores that refuse calls -/
def flaky (g : Contest τ μ ι) : Contest (Flaky τ) (Flaky μ) ι :=
  { g with data := Flaky.rows g.data, names := Flaky.rows g.names }

variable {D : τ → Table Column → Prop} {N : μ → Table Column → Prop}

theorem Reliable.flaky (rel : g.Reliable D N) (calm : Prop) :
    g.flaky.Fallible (¬ calm) (Flaky.Shows D calm) (Flaky.Shows N calm) :=
  ⟨Flaky.serves rel.data, Flaky.trims rel.dataTrims, Flaky.serves rel.names, Flaky.trims rel.namesTrims⟩

/-! ## What is left where a call stops -/

namespace Traced

variable {active : ι → Prop} {x y : Scene ι} {i : ι}

theorem unasked (h : g.Traced active x) (stopped : x.Unasked y) : g.Traced active y := by
  cases stopped with
  | untouched => exact h
  | clearing _ cs => exact h.without cs

theorem unclosed (h : g.Traced active x) (stopped : x.Unclosed i (g.signature i) y) : g.Traced active y := by
  cases stopped with
  | untouched => exact h
  | stillHeld => exact h.drop _
  | stillRecorded => exact (h.drop _).drop _

/-- an attempt that stops keeps the traces, unless its bid has won -/
theorem unattempted [DecidableEq ι] {a : Attempt} (h : g.Traced active x) (hi : active i)
    (stopped : g.Unattempted i a x y) (lost : ∀ time, y.row (g.signature i) ≠ some (Bid.ownedCell (g.signature i) time)) :
    g.Traced active y := by
  cases stopped with
  | asking _ stopped => exact (h.atTime _).unasked stopped
  | bidding _ asked => exact ((h.atTime _).asked asked).pass _
  | entering _ asked => exact (((h.atTime _).asked asked).pass _).putTrying
  | resolving _ asked stopped =>
    have entered := h.entered hi asked
    cases stopped with
    | untouched => exact entered
    | withdrawn => exact entered.drop _
    | unaware time won => exact absurd won (lost time)

end Traced

/-! ## Whole calls, one after another -/

/-- what may happen next -/
inductive Turn (ι : Type) where
  | obtain (i : ι) (a : Attempt)
  | close (i : ι)
  | clock (time : UInt64)
  /-- which of their next calls the two stores refuse -/
  | refuse (data names : List (Option Error))

/-- where contenders meet, and of each contender whether his latest call, if he has made one, was a close that ended well -/
structure Bout (τ μ ι : Type) where
  arena : Arena (Flaky τ) (Flaky μ) ι
  closed : ι → Bool := fun _ => true

/-- which of the next calls are refused from now on -/
def Bout.refuse (b : Bout τ μ ι) (data names : List (Option Error)) : Bout τ μ ι :=
  let s := b.arena
  { b with arena := { s with data := { s.data with refusals := data }, names := { s.names with refusals := names } } }

variable [DecidableEq ι]

/-- a turn is taken, however the call ends -/
def take (g : Contest τ μ ι) (b : Bout τ μ ι) : Turn ι → Bout τ μ ι
  | .obtain i a => ⟨(g.flaky.alone i a b.arena).2, Function.update b.closed i false⟩
  | .close i =>
    let (outcome, s) := (g.flaky.lock i).close b.arena
    ⟨s, Function.update b.closed i outcome.isOk⟩
  | .clock time => { b with arena := { b.arena with clock := time } }
  | .refuse data names => b.refuse data names

/-- an attempt fails and leaves its own bid as an owned one, of which its handle knows nothing -/
def Strands (g : Contest τ μ ι) (D : τ → Table Column → Prop) (b : Bout τ μ ι) : Turn ι → Prop
  | .obtain i a => (g.flaky.alone i a b.arena).1.isOk = false ∧
      ∃ t time, D (g.flaky.alone i a b.arena).2.data.store t ∧
        t.get g.name (g.signature i) = some (Bid.ownedCell (g.signature i) time)
  | _ => False

/-- no attempt does so in a run -/
def NeverStrands (g : Contest τ μ ι) (D : τ → Table Column → Prop) (b : Bout τ μ ι) : List (Turn ι) → Prop
  | [] => True
  | turn :: turns => ¬ g.Strands D b turn ∧ g.NeverStrands D (g.take b turn) turns

/-- the lock's row has the cells of a scene, left by contenders whose latest call was no close that ended well -/
def Open (g : Contest τ μ ι) (D : τ → Table Column → Prop) (N : μ → Table Column → Prop) (b : Bout τ μ ι) : Prop :=
  ∃ x, Arena.Sets (Flaky.Shows D False) (Flaky.Shows N False) g.name b.arena x ∧ g.flaky.Traced (b.closed · = false) x

theorem take_obtain (rel : g.Reliable D N) (i : ι) (a : Attempt) {b : Bout τ μ ι} (h : g.Open D N b)
    (spared : ¬ g.Strands D b (.obtain i a)) : g.Open D N (g.take b (.obtain i a)) := by
  obtain ⟨x, sets, traced⟩ := h
  -- whatever this call does, it is no close
  have mine : Function.update b.closed i false i = false := Function.update_self ..
  replace traced : g.flaky.Traced (Function.update b.closed i false · = false) x := by
    refine traced.mono fun j hj => ?_
    rw [Function.update_apply]
    split_ifs
    · rfl
    · exact hj
  obtain ⟨y, sets', ⟨yes, ran, attempted⟩ | ⟨_, ⟨e, ran⟩, stopped⟩⟩ := (rel.flaky False).alone i a x b.arena sets
  · exact ⟨y, sets', traced.attempted mine attempted⟩
  · refine ⟨y, sets', traced.unattempted mine stopped fun time won => spared ⟨by rw [ran]; rfl, ?_⟩⟩
    obtain ⟨t, ht, row⟩ := sets'.data
    exact ⟨t, time, ht.1, (row _).trans won⟩

theorem take_close (rel : g.Reliable D N) (i : ι) {b : Bout τ μ ι} (h : g.Open D N b) :
    g.Open D N (g.take b (.close i)) := by
  obtain ⟨x, sets, traced⟩ := h
  obtain ⟨y, sets', ⟨_, ran, rfl⟩ | ⟨_, ⟨e, ran⟩, stopped⟩⟩ := (rel.flaky False).close i x b.arena sets
  · refine ⟨_, sets', (traced.closed i).mono fun j hj => ?_⟩
    exact (Function.update_of_ne hj.2 ..).trans hj.1
  · refine ⟨y, sets', (traced.unclosed stopped).mono fun j hj => ?_⟩
    show Function.update b.closed i ((g.flaky.lock i).close b.arena).1.isOk j = false
    rw [ran, Function.update_apply]
    split_ifs
    · rfl
    · exact hj

/-- one turn -/
theorem take_open (rel : g.Reliable D N) (turn : Turn ι) {b : Bout τ μ ι} (h : g.Open D N b)
    (spared : ¬ g.Strands D b turn) : g.Open D N (g.take b turn) := by
  cases turn with
  | obtain i a => exact take_obtain rel i a h spared
  | close i => exact take_close rel i h
  | clock time =>
    obtain ⟨x, sets, traced⟩ := h
    exact ⟨x.atTime time, ⟨sets.data, sets.names, rfl, sets.owned⟩, traced.atTime time⟩
  | refuse data names =>
    obtain ⟨x, ⟨⟨t, ht, row⟩, ⟨m, hm⟩, clock, owned⟩, traced⟩ := h
    exact ⟨x, ⟨⟨t, ⟨ht.1, nofun⟩, row⟩, ⟨m, ⟨hm.1, nofun⟩⟩, clock, owned⟩, traced⟩

/-- any turns -/
theorem turns_open (rel : g.Reliable D N) (turns : List (Turn ι)) {b : Bout τ μ ι} (h : g.Open D N b)
    (spared : g.NeverStrands D b turns) : g.Open D N (turns.foldl g.take b) := by
  induction turns generalizing b with
  | nil => exact h
  | cons turn turns ih =>
    obtain ⟨now, later⟩ := spared
    exact ih (take_open rel turn h now) later

/-- **No lock is stuck.** Contenders on an empty lock row, who attempt and close one after another, in stores that refuse
any calls: if no attempt fails once its bid has won, then whenever the latest call of everybody was a close that ended well,
no bid is left in the row and the state does not read as held; and once the stores refuse nothing, anybody takes the lock, if
there is no state, or if the state was written an expiry period ago. -/
theorem no_lock_is_stuck (g : Contest τ μ ι) (rel : g.Reliable D N) (s : Arena (Flaky τ) (Flaky μ) ι) (t m : Table Column)
    (data : D s.data.store t) (names : N s.names.store m) (empty : ∀ c, t.get g.name c = none)
    (free : ∀ i, s.owned i = false) (turns : List (Turn ι)) (spared : g.NeverStrands D ⟨s, fun _ => true⟩ turns)
    (closed : ∀ i, (turns.foldl g.take ⟨s, fun _ => true⟩).closed i = true) :
    let b := turns.foldl g.take ⟨s, fun _ => true⟩
    ∃ t', D b.arena.data.store t' ∧ (∀ u ∈ t'.values g.name, Bid.ofCell? u = none) ∧
      (∀ byte rest, t'.get g.name Lock.stateColumn = some (byte :: rest) → LockState.ofByte byte ≠ .locked) ∧
      ∀ i d, (g.contender i).expiry = some d → ∀ a : Attempt,
        (∀ u, t'.get g.name Lock.stateColumn = some u → (LockState.writtenAt u).toNat + d.millis ≤ a.asked.toNat) →
        (g.flaky.alone i a (b.refuse [] []).arena).1 = .ok true := by
  intro b
  have start : g.Open D N ⟨s, fun _ => true⟩ :=
    ⟨⟨t.get g.name, s.owned, s.clock⟩, ⟨⟨t, ⟨data, nofun⟩, fun _ => rfl⟩, ⟨m, ⟨names, nofun⟩⟩, rfl, rfl⟩, .of_empty empty free⟩
  obtain ⟨x, ⟨⟨t', ht, row⟩, ⟨m', hm⟩, clock, owned⟩, traced⟩ := turns_open rel turns start spared
  -- nobody is left who may have a bid in the row or own the lock
  have none (i : ι) : ¬ b.closed i = false := fun open' => absurd ((closed i).symm.trans open') nofun
  have free : ∀ i, x.owned i = false := fun i => eq_false_of_ne_true fun own => none i (traced.owners i own)
  refine ⟨t', ht.1, fun u hu => ?_, fun byte rest cell locked => ?_, fun i d expires a late => ?_⟩
  · obtain ⟨c, hc⟩ := Table.mem_values.1 hu
    by_contra isBid
    obtain ⟨bid, found⟩ := Option.ne_none_iff_exists'.1 isBid
    exact traced.no_bids none ⟨c, u, (row c).symm.trans hc, found⟩
  · refine traced.state_ne_locked free ?_
    rw [Scene.state, ← row]
    simp only [cell]
    exact locked
  · have sets : Arena.Sets (Flaky.Shows D True) (Flaky.Shows N True) g.flaky.name (b.refuse [] []).arena x :=
      ⟨⟨t', ⟨ht.1, fun _ => rfl⟩, row⟩, ⟨m', ⟨hm.1, fun _ => rfl⟩⟩, clock, owned⟩
    obtain ⟨yes, s', y, ran, _, attempted⟩ :=
      (((rel.flaky True).alone i a x).yields (not_not.2 trivial)).run sets
    suffices won : yes = true by rw [ran, won]
    cases cell : x.row Lock.stateColumn with
    | none => exact attempted.won_of_free (Scene.state_of_absent cell) fun _ => traced.no_bids none
    | some u =>
      refine traced.stale_round_won free (traced.state_trying free cell) expires ?_ attempted
      rw [Scene.written, cell]
      exact late u ((row _).trans cell)

/-- the put of the winning bid is refused, so is the first call of the close, and the second close ends well: thirty seconds
later the other contender takes the lock -/
theorem no_lock_is_stuck_after_retry :
    let down : Error := .backend "down"
    let start : Arena (Flaky (Table Column)) (Flaky (Table Column)) Bool := { data := ⟨.empty, []⟩, names := ⟨.empty, []⟩ }
    let turns : List (Turn Bool) := [.refuse [none, none, none, none, some down, some down] [],
      .obtain false { asked := 0 }, .close false, .close false]
    (ofTwoExpiring.flaky.alone true { asked := 30000 }
      ((turns.foldl ofTwoExpiring.take ⟨start, fun _ => true⟩).refuse [] []).arena).1 = .ok true := by
  intro down start turns
  have spared : ofTwoExpiring.NeverStrands Eq ⟨start, fun _ => true⟩ turns := by
    refine ⟨not_false, ?_, not_false, not_false, trivial⟩
    rintro ⟨_, t, time, rfl, owned⟩
    have bid : (ofTwoExpiring.flaky.alone false { asked := 0 } (ofTwoExpiring.take ⟨start, fun _ => true⟩
        (.refuse [none, none, none, none, some down, some down] [])).arena).2.data.store.get "lock" 4 =
        some (Bid.openCell 4) := by decide +kernel
    have same : Bid.openCell 4 = Bid.ownedCell 4 time := Option.some.inj (bid.symm.trans owned)
    exact absurd (congrArg List.length same) (by simp [Bid.openCell, Bid.ownedCell])
  have closed : ∀ i, (turns.foldl ofTwoExpiring.take ⟨start, fun _ => true⟩).closed i = true := by decide +kernel
  have state : (turns.foldl ofTwoExpiring.take ⟨start, fun _ => true⟩).arena.data.store.get "lock" Lock.stateColumn =
      some (LockState.trying.cell 0) := by decide +kernel
  obtain ⟨t, shown, _, _, taken⟩ := no_lock_is_stuck (D := Eq) (N := Eq) ofTwoExpiring
    (reliable_of_tables ..) start .empty .empty rfl rfl
    (fun _ => Table.get_empty _ _) (fun _ => rfl) turns spared closed
  refine taken true (.ofSeconds 30) rfl { asked := 30000 } fun u hu => ?_
  rw [← shown] at hu
  obtain rfl : LockState.trying.cell 0 = u := Option.some.inj (state.symm.trans hu)
  rw [LockState.writtenAt_cell]
  decide

/-- **A stuck lock.** The put of the lock's length is refused once. The bid has won by then, but its handle does not know, and
its close takes back the bid only: everybody has closed, no bid is left, and the lock is held for good. -/
theorem stuck_lock :
    let start : Bout (Table Column) (Table Column) Bool := ⟨{ data := ⟨.empty, []⟩, names := ⟨.empty, []⟩ }, fun _ => true⟩
    let turns : List (Turn Bool) := [.refuse [] [some (.backend "down")], .obtain false { asked := 0 }, .close false]
    let b := turns.foldl ofTwoExpiring.take start
    (∀ i, b.closed i = true) ∧ b.arena.data.store.values "lock" = [LockState.locked.cell 0] ∧
      (ofTwoExpiring.flaky.alone true { asked := 30000 } (b.refuse [] []).arena).1 = .ok false := by
  decide +kernel

end Contest

end RowFiles
