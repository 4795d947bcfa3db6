/-
What an attempt makes of a round for a lock that has been abandoned.

The row of the lock has a state that says a round is on, and any bids, each in the column of its signature. Somebody asks
for the lock while nobody else does anything.

- `canBid_round`: the round counts as abandoned just if it is as old as the expiry. Then its bids go, the asker's own bid of
  an earlier attempt among them, and the state alone is left.
- `register_round`, `resolve_round`: so the asker's is the only bid when he resolves, and he wins.
- `expiry_is_exact`: the attempt wins just if the round has expired, and leaves the row with the held state and the winner's
  bid alone. Otherwise it leaves everything as it was.
-/
import RowFiles.Proofs.Lock.Recovery

namespace RowFiles

open Run

variable {τ μ ι : Type}

/-- an arena over tables shows itself only -/
theorem Arena.Shows.eq {s v : Arena.View ι} (shows : Arena.Shows Eq Eq s v) : s = v := by
  obtain ⟨_, _, _, _, _⟩ := s
  obtain ⟨_, _, _, _, _⟩ := v
  obtain ⟨rfl, rfl, rfl, rfl, rfl⟩ := shows
  rfl

namespace Contest

/-! ## Rows of a lock -/

section

variable (g : Contest τ μ ι)

/-- a round is on: the row has a state written at a time, and a bid for each of some signatures above zero -/
def Round (time : UInt64) (bids : List UInt64) (t : Table Column) : Prop :=
  ∀ c, t.get g.name c =
    if c = Lock.stateColumn then some (LockState.trying.cell time)
    else if c ∈ bids then some (Bid.openCell c) else none

/-- the lock is held: the row has a state and the winner's bid, both written at a time, and nothing else -/
def Taken (i : ι) (time : UInt64) (t : Table Column) : Prop :=
  ∀ c, t.get g.name c =
    if c = Lock.stateColumn then some (LockState.locked.cell time)
    else if c = g.signature i then some (Bid.ownedCell c time) else none

/-- from `v` to `w` nothing has changed but the lock's row -/
structure RowOnly (v w : Arena.View ι) : Prop where
  rows : ∀ k ≠ g.name, ∀ c, w.data.get k c = v.data.get k c
  names : w.names = v.names
  catalogs : w.catalogs = v.catalogs
  clock : w.clock = v.clock
  owned : w.owned = v.owned

/-- a contender takes a round that began at `time` for abandoned -/
def Expired (i : ι) (time now : UInt64) : Prop :=
  ∃ d, (g.contender i).expiry = some d ∧ d.millis ≤ now.toNat - time.toNat

/-- he does so with a duration of any length, of which the age may keep less -/
def Lapsed (i : ι) (time now : UInt64) : Prop :=
  ∃ d, (g.contender i).expiry = some d ∧ d.kept ≤ now.toNat - time.toNat

end

variable {g : Contest τ μ ι} {i : ι} {time now : UInt64} {bids : List UInt64} {t u : Table Column}

namespace RowOnly

variable {v w x : Arena.View ι}

theorem refl (g : Contest τ μ ι) (v : Arena.View ι) : g.RowOnly v v := ⟨fun _ _ _ => rfl, rfl, rfl, rfl, rfl⟩

theorem trans (h : g.RowOnly v w) (h' : g.RowOnly w x) : g.RowOnly v x where
  rows k other c := (h'.rows k other c).trans (h.rows k other c)
  names := h'.names.trans h.names
  catalogs := h'.catalogs.trans h.catalogs
  clock := h'.clock.trans h.clock
  owned := h'.owned.trans h.owned

theorem put (h : g.RowOnly v w) (c : Column) (u : Bytes) : g.RowOnly v { w with data := w.data.put g.name c u } :=
  { h with rows := fun k other c' => (Table.get_put ..).trans ((if_neg fun e => other e.1.symm).trans (h.rows k other c')) }

theorem deleteColumn (h : g.RowOnly v w) (c : Column) : g.RowOnly v { w with data := w.data.deleteColumn g.name c } :=
  { h with
    rows := fun k other c' =>
      (Table.get_deleteColumn ..).trans ((if_neg fun e => other e.1.symm).trans (h.rows k other c')) }

end RowOnly

namespace Round

theorem state (round : g.Round time bids t) : t.get g.name Lock.stateColumn = some (LockState.trying.cell time) :=
  (round _).trans (if_pos rfl)

/-- the bids that are found are those of the round, and none of them is owned -/
theorem found_iff (round : g.Round time bids t) (b : Bid) :
    (∃ c u, t.get g.name c = some u ∧ Bid.ofCell? u = some b) ↔
      b.owned = false ∧ b.signature ∈ bids ∧ b.signature ≠ Lock.stateColumn := by
  constructor
  · rintro ⟨c, u, cell, bid⟩
    rw [round] at cell
    split_ifs at cell with state mine
    · obtain rfl := Option.some.inj cell
      rw [Bid.ofCell?_of_length (LockState.length_cell _ _)] at bid
      cases bid
    · obtain rfl := Option.some.inj cell
      rw [Bid.ofCell?_openCell] at bid
      obtain rfl := Option.some.inj bid
      exact ⟨rfl, mine, state⟩
  · obtain ⟨x, owned⟩ := b
    rintro ⟨rfl, mine, other⟩
    refine ⟨x, Bid.openCell x, ?_, Bid.ofCell?_openCell x⟩
    rw [round, if_neg other, if_pos mine]

/-- a round begins with its state -/
theorem begun (free : ∀ c ≠ Lock.stateColumn, t.get g.name c = none) (time : UInt64) :
    g.Round time [] (t.put g.name Lock.stateColumn (LockState.trying.cell time)) := by
  intro c
  rw [Table.get_put]
  by_cases state : c = Lock.stateColumn
  · rw [if_pos ⟨rfl, state.symm⟩, if_pos state]
  · rw [if_neg fun e => state e.2.symm, if_neg state, if_neg List.not_mem_nil, free c state]

theorem bid (round : g.Round time bids t) {b : UInt64} (set : b ≠ Lock.stateColumn) :
    g.Round time (b :: bids) (t.put g.name b (Bid.openCell b)) := by
  intro c
  rw [Table.get_put, round c]
  by_cases mine : b = c
  · subst mine
    rw [if_pos ⟨rfl, rfl⟩, if_neg set, if_pos List.mem_cons_self]
  · rw [if_neg fun e => mine e.2]
    simp only [List.mem_cons, Ne.symm mine, false_or]

/-- a contender enters a round without bids -/
theorem enter (round : g.Round time [] t) (i : ι) (now : UInt64) :
    g.Round now [g.signature i]
      ((t.put g.name Lock.stateColumn (LockState.trying.cell now)).put g.name (g.signature i) (Bid.openCell (g.signature i))) := by
  refine (begun (fun c other => ?_) now).bid (g.signature_ne_zero i)
  rw [round, if_neg other, if_neg List.not_mem_nil]

/-- the only bid wins -/
theorem win (round : g.Round time [g.signature i] t) (now : UInt64) :
    g.Taken i now ((t.put g.name (g.signature i) (Bid.ownedCell (g.signature i) now)).put g.name Lock.stateColumn
      (LockState.locked.cell now)) := by
  intro c
  rw [Table.get_put, Table.get_put, round c]
  by_cases state : c = Lock.stateColumn
  · rw [if_pos ⟨rfl, state.symm⟩, if_pos state]
  · rw [if_neg fun e => state e.2.symm, if_neg state]
    by_cases mine : c = g.signature i
    · subst mine
      rw [if_pos ⟨rfl, rfl⟩, if_neg state, if_pos rfl]
    · rw [if_neg fun e => mine e.2.symm, if_neg state, if_neg mine, if_neg fun e => mine (List.mem_singleton.1 e)]

end Round

/-! ## Calls of a handle -/

variable {D : τ → Table Column → Prop} {N : μ → Table Column → Prop}

variable [DecidableEq ι]

/-- bids are removed one after another, and nothing else -/
theorem removeBids_leaves (rel : g.Attends D N) (i : ι) (bs : List Bid) (v : Arena.View ι) :
    Yields (Arena.Shows D N) ((g.lock i).removeBids bs) v fun _ w => g.RowOnly v w ∧
      ∀ c, w.data.get g.name c = if ∃ b ∈ bs, b.signature = c then none else v.data.get g.name c := by
  induction bs generalizing v with
  | nil => exact yields_pure () ⟨.refl g v, fun c => by simp⟩
  | cons b bs ih =>
    refine (rel.deleteColumn i v b.signature).step ?_
    refine (ih _).mono fun _ w hw => ?_
    obtain ⟨only, row⟩ := hw
    refine ⟨((RowOnly.refl g v).deleteColumn _).trans only, fun c => ?_⟩
    rw [row, Table.get_deleteColumn]
    by_cases later : ∃ b ∈ bs, b.signature = c
    · rw [if_pos later, if_pos]
      obtain ⟨b', there, e⟩ := later
      exact ⟨b', List.mem_cons_of_mem b there, e⟩
    · rw [if_neg later]
      simp only [true_and, List.mem_cons, exists_eq_or_imp, later, or_false]

variable {v : Arena.View ι}

/-- the bids of a round without an owner are cleared away -/
theorem clearStaleBids_round (rel : g.Attends D N) (i : ι) (round : g.Round time bids v.data) :
    Yields (Arena.Shows D N) (g.lock i).clearStaleBids v fun yes w =>
      yes = true ∧ g.Round time [] w.data ∧ g.RowOnly v w := by
  refine (rel.bids i v).bind ?_
  intro bs v hw
  obtain ⟨mem, rfl⟩ := hw
  have found (b : Bid) := (mem b).trans (round.found_iff b)
  have unowned : ¬ bs.any Bid.owned = true := fun owned => by
    obtain ⟨b, there, owned⟩ := List.any_eq_true.1 owned
    rw [((found b).1 there).1] at owned
    cases owned
  rw [if_neg unowned]
  refine (removeBids_leaves rel i bs v).bind fun _ w hw => ?_
  obtain ⟨only, row⟩ := hw
  refine yields_pure true ⟨rfl, fun c => ?_, only⟩
  rw [row, round c]
  by_cases state : c = Lock.stateColumn
  · rw [if_neg fun ⟨b, there, e⟩ => ((found b).1 there).2.2 (e.trans state), if_pos state, if_pos state]
  · by_cases bid : c ∈ bids
    · rw [if_pos ⟨⟨c, false⟩, (found _).2 ⟨rfl, bid, state⟩, rfl⟩, if_neg state, if_neg List.not_mem_nil]
    · rw [if_neg state, if_neg bid, ite_self, if_neg state, if_neg List.not_mem_nil]

omit [DecidableEq ι] in
theorem lapsed_iff_expired (small : ∀ d, (g.contender i).expiry = some d → d.millis < UInt64.size) :
    g.Lapsed i time now ↔ g.Expired i time now := by
  refine exists_congr fun d => and_congr_right fun expires => ?_
  rw [d.kept_of_small (small d expires)]

/-- **Asking for the lock** while the row says that a round is on: if it has not lapsed, nothing changes, and otherwise its
bids are cleared away. -/
theorem canBid_trying (rel : g.Attends D N) (i : ι)
    (state : v.data.get g.name Lock.stateColumn = some (LockState.trying.cell time)) {P : Bool → Arena.View ι → Prop}
    (young : ¬ g.Lapsed i time v.clock → P false v)
    (old : g.Lapsed i time v.clock → Yields (Arena.Shows D N) (g.lock i).clearStaleBids v P) :
    Yields (Arena.Shows D N) (g.lock i).canBid v P := by
  refine (rel.get i v Lock.stateColumn).next ?_
  rw [state]
  have expiry : (g.lock i).expiry = (g.contender i).expiry := rfl
  have trying : LockState.ofByte LockState.trying.toByte = .trying := rfl
  have written : LockState.writtenAt (LockState.trying.toByte :: Bytes.ofUInt64 time) = time :=
    LockState.writtenAt_cell .trying time
  simp only [LockState.cell, trying, expiry, written]
  cases expires : (g.contender i).expiry with
  | none =>
    apply yields_pure
    apply young
    rintro ⟨d, set, _⟩
    rw [expires] at set
    cases set
  | some d =>
    have lapsed : g.Lapsed i time v.clock ↔ d.age ≤ elapsed v.clock time := by
      simp only [Lapsed, expires, Option.some.injEq, exists_eq_left', age_le_elapsed_iff_kept]
    refine (now i v).next ?_
    split_ifs with short
    · exact yields_pure false (young (mt lapsed.1 (UInt64.not_le.2 short)))
    · exact old (lapsed.2 (UInt64.not_lt.1 short))

/-- asking for the lock clears a round that has lapsed, and changes nothing if it has not -/
theorem canBid_round (rel : g.Attends D N) (i : ι) (round : g.Round time bids v.data) :
    Yields (Arena.Shows D N) (g.lock i).canBid v fun yes w => (yes = true ↔ g.Lapsed i time v.clock) ∧
      if yes then g.Round time [] w.data ∧ g.RowOnly v w else w = v := by
  apply canBid_trying rel i round.state
  · intro young
    exact ⟨iff_of_false Bool.false_ne_true young, rfl⟩
  · intro old
    refine (clearStaleBids_round rel i round).mono fun yes w hw => ?_
    obtain ⟨rfl, cleared⟩ := hw
    exact ⟨iff_of_true rfl old, cleared⟩

/-- a contender enters a round without bids -/
theorem register_round (rel : g.Attends D N) (i : ι) (round : g.Round time [] v.data) :
    Yields (Arena.Shows D N) (g.lock i).register v fun _ w =>
      g.Round v.clock [g.signature i] w.data ∧ g.RowOnly v w := by
  refine (rel.writeState i v .trying).step ?_
  refine (rel.put i _ _ _).mono fun _ w hw => ?_
  subst hw
  exact ⟨round.enter i v.clock, ((RowOnly.refl g v).put ..).put ..⟩

variable (g i) in
/-- from `v` to `w` contender `i` has taken the lock, and nothing else has changed -/
structure TakenOver (v w : Arena.View ι) : Prop where
  row : g.Taken i v.clock w.data
  rows : ∀ k ≠ g.name, ∀ c, w.data.get k c = v.data.get k c
  names : w.names = Catalog.persisted v.names g.name 1
  catalogs : w.catalogs = Function.update v.catalogs (g.contender i).process
    (((v.catalogs (g.contender i).process).setLength g.name 1).clean g.name)
  clock : w.clock = v.clock
  owned : w.owned = Function.update v.owned i true

theorem TakenOver.after {u w : Arena.View ι} (won : g.TakenOver i u w) (only : g.RowOnly v u) : g.TakenOver i v w where
  row := only.clock ▸ won.row
  rows k other c := (won.rows k other c).trans (only.rows k other c)
  names := only.names ▸ won.names
  catalogs := only.catalogs ▸ won.catalogs
  clock := won.clock.trans only.clock
  owned := only.owned ▸ won.owned

/-- **Who has the only bid wins**, whatever the time. -/
theorem resolve_round (rel : g.Attends D N) (i : ι) (round : g.Round time [g.signature i] v.data) :
    Yields (Arena.Shows D N) (g.lock i).resolve v fun yes w => yes = true ∧ g.TakenOver i v w := by
  refine (rel.bids i v).bind ?_
  intro bs v hw
  obtain ⟨mem, rfl⟩ := hw
  have found (b : Bid) : b ∈ bs ↔ b = ⟨g.signature i, false⟩ := by
    obtain ⟨x, owned⟩ := b
    rw [(mem _).trans (round.found_iff _), List.mem_singleton, Bid.mk.injEq]
    exact ⟨fun ⟨owned, mine, _⟩ => ⟨mine, owned⟩, fun ⟨mine, owned⟩ => ⟨owned, mine, mine ▸ g.signature_ne_zero i⟩⟩
  have alone : ¬ (bs.any fun b => b.owned && b.signature ≠ (g.lock i).signature) = true := fun rival => by
    obtain ⟨b, there, owned⟩ := List.any_eq_true.1 rival
    rw [(found b).1 there] at owned
    cases owned
  have highest : Bid.highest bs = some (g.lock i).signature := by
    refine Bid.highest_eq (b := ⟨g.signature i, false⟩) ((found _).2 rfl) fun c there => Nat.le_of_eq ?_
    rw [(found c).1 there]
  rw [if_neg alone, if_neg (not_not.2 highest)]
  refine (now i v).next ?_
  refine (rel.put i v _ _).step ?_
  refine (rel.writeState i _ .locked).step ?_
  refine (rel.setLength _ _ g.name 1).step ?_
  refine (setOwned i _ true).step ?_
  have only := ((RowOnly.refl g v).put (g.signature i) (Bid.ownedCell (g.signature i) v.clock)).put Lock.stateColumn
    (LockState.locked.cell v.clock)
  exact yields_pure true ⟨rfl, round.win v.clock, only.rows, rfl, rfl, rfl, rfl⟩

/-- **An attempt** takes the lock if the round has lapsed, and changes nothing if it has not. -/
theorem obtain_lapsed (rel : g.Attends D N) (i : ι) (free : v.owned i = false) (round : g.Round time bids v.data) :
    Yields (Arena.Shows D N) (g.lock i).obtain v fun yes w =>
      (yes = true ↔ g.Lapsed i time v.clock) ∧ if yes then g.TakenOver i v w else w = v := by
  refine (owned i v).next ?_
  rw [free, if_neg Bool.false_ne_true]
  refine (canBid_round rel i round).bind fun yes w hw => ?_
  obtain ⟨lapsed, left⟩ := hw
  cases yes with
  | false =>
    obtain rfl := left
    exact yields_pure false ⟨lapsed, rfl⟩
  | true =>
    obtain ⟨cleared, only⟩ := left
    rw [Bool.not_true, if_neg Bool.false_ne_true, pure_bind]
    refine (register_round rel i cleared).bind fun _ u hu => ?_
    obtain ⟨entered, only'⟩ := hu
    rw [pure_bind]
    refine (resolve_round rel i entered).mono fun yes x hx => ?_
    obtain ⟨rfl, won⟩ := hx
    exact ⟨lapsed, won.after (only.trans only')⟩

theorem obtain_round (rel : g.Attends D N) (i : ι) (free : v.owned i = false) (round : g.Round time bids v.data)
    (small : ∀ d, (g.contender i).expiry = some d → d.millis < UInt64.size) :
    Yields (Arena.Shows D N) (g.lock i).obtain v fun yes w =>
      (yes = true ↔ g.Expired i time v.clock) ∧ if yes then g.TakenOver i v w else w = v := by
  rw [← lapsed_iff_expired small]
  exact obtain_lapsed rel i free round

/-- who has taken the lock finds its length recorded -/
theorem TakenOver.length {s : Arena τ μ ι} {w : Arena.View ι} (won : g.TakenOver i v w) (shows : Arena.Shows D N s w) :
    ((g.catalog (ι := ι) (g.contender i).process).length g.name s).1 = .ok 1 := by
  have recorded : (w.catalogs (g.contender i).process).lengths[g.name]? = some 1 := by
    rw [won.catalogs, Function.update_self]
    exact Std.ExtTreeMap.getElem?_insert_self
  have told : Yields (Arena.Shows D N) ((g.catalog (ι := ι) (g.contender i).process).length g.name) w
      fun n _ => n = 1 := by
    refine (catalogRead _ w).next ?_
    rw [recorded]
    exact yields_pure 1 rfl
  obtain ⟨_, _, _, run, _, rfl⟩ := told.run shows
  rw [run]

/-- **Expiry is exact.** The row of a lock is that of a round which began at a time, with any bids, the asker's own
perhaps among them. An attempt by somebody who does not think he owns the lock takes it just if he takes rounds for
abandoned after some time and at least that much has passed, where a clock that has gone back counts as no time at all.
Then the row is left with the held state and his bid, both written now, the length is 1, and nothing else has changed.
If the attempt does not take the lock, it changes nothing. Who thinks he owns the lock is told so, and changes nothing. -/
theorem expiry_is_exact (g : Contest τ μ ι) (rel : g.Reliable D N) (i : ι) {s : Arena τ μ ι} {v : Arena.View ι}
    (shows : Arena.Shows D N s v) (time : UInt64) (bids : List UInt64) (round : g.Round time bids v.data)
    (small : ∀ d, (g.contender i).expiry = some d → d.millis < UInt64.size) :
    (s.owned i = true → (g.lock i).obtain s = (.ok true, s)) ∧
      (s.owned i = false → ∃ yes s' w, (g.lock i).obtain s = (.ok yes, s') ∧ Arena.Shows D N s' w ∧
        (yes = true ↔ ∃ d, (g.contender i).expiry = some d ∧ d.millis ≤ s.clock.toNat - time.toNat) ∧
        if yes then g.TakenOver i v w ∧ ((g.catalog (g.contender i).process).length g.name s').1 = .ok 1 else w = v) := by
  constructor
  · intro mine
    have read : (g.lock i).owned.read s = (.ok true, s) := by rw [← mine]; rfl
    rw [Lock.obtain, Lock.obtainWhile, bind_of_ok read, if_pos rfl]
    rfl
  · intro free
    have attempt := obtain_round rel.attends i (shows.owned ▸ free) round small
    obtain ⟨yes, s', w, run, shows', expired, left⟩ := attempt.run shows
    rw [← shows.clock] at expired
    refine ⟨yes, s', w, run, shows', expired, ?_⟩
    cases yes with
    | false => exact left
    | true => exact ⟨left, left.length shows'⟩

/-- a round is abandoned after thirty seconds and not a millisecond before; a larger bid of it is no obstacle -/
theorem expiry_is_exact_at_thirty_seconds :
    let row := ((Table.empty.put "lock" 0 (LockState.trying.cell 1000)).put "lock" 4 (Bid.openCell 4)).put "lock" 9
      (Bid.openCell 9)
    let s (now : UInt64) : Arena.View Bool := { data := row, names := .empty, clock := now }
    ofTwoExpiring.Round 1000 [9, 4] row ∧
      (∃ w, (ofTwoExpiring.lock false).obtain (s 31000) = (.ok true, w) ∧ ofTwoExpiring.TakenOver false (s 31000) w) ∧
      (ofTwoExpiring.lock false).obtain (s 30999) = (.ok false, s 30999) := by
  intro row s
  have begun := Round.begun (g := ofTwoExpiring) (fun _ _ => Table.get_empty _ _) 1000
  have round : ofTwoExpiring.Round 1000 [9, 4] row := (begun.bid (by decide)).bid (by decide)
  have small : ∀ d, (ofTwoExpiring.contender false).expiry = some d → d.millis < UInt64.size := by
    rintro _ ⟨⟩
    decide
  have attempt (now : UInt64) := (expiry_is_exact (D := Eq) (N := Eq) ofTwoExpiring (reliable_of_tables ..) false
    (s := s now) (v := s now) ⟨rfl, rfl, rfl, rfl, rfl⟩ 1000 [9, 4] round small).2 rfl
  refine ⟨round, ?_, ?_⟩
  · obtain ⟨yes, s', w, run, shows, expired, left⟩ := attempt 31000
    obtain rfl : yes = true := expired.2 ⟨.ofSeconds 30, rfl, by decide⟩
    obtain rfl : s' = w := shows.eq
    exact ⟨s', run, left.1⟩
  · obtain ⟨yes, s', w, run, shows, expired, left⟩ := attempt 30999
    have young : yes = false := Bool.eq_false_iff.2 fun won => by
      obtain ⟨_, ⟨⟩, old⟩ := expired.1 won
      exact absurd old (by decide)
    subst young
    obtain rfl : w = s 30999 := left
    obtain rfl : s' = s 30999 := shows.eq
    exact run

/-- who owns the lock is told so, though his row has been cleared and somebody else has begun a round -/
theorem owner_outlives_cleared_row :
    let row := (Table.empty.put "lock" 0 (LockState.trying.cell 0)).put "lock" 4 (Bid.openCell 4)
    let s : Arena.View Bool := { data := row, names := .empty, owned := fun large => large }
    ofTwoExpiring.Round 0 [4] row ∧ ¬ ofTwoExpiring.Expired true 0 s.clock ∧
      (ofTwoExpiring.lock true).obtain s = (.ok true, s) := by
  intro row s
  refine ⟨?_, ?_, rfl⟩
  · exact (Round.begun (g := ofTwoExpiring) (fun _ _ => Table.get_empty _ _) 0).bid (by decide)
  · rintro ⟨_, ⟨⟩, old⟩
    exact absurd old (by decide)

end Contest

end RowFiles
