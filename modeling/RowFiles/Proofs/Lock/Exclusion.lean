/-
At most one contender owns a lock, whatever the order in which the phases of all attempts are taken.

1. `Contest.Exclusive`: every cell of the lock's row is a state or the bid of a contender, with sixteen bytes if he owns
   the lock and with eight if not; an owner's bid is there; there is one owner at most. The state cell protects nobody:
   late bidders overwrite it. What protects an owner is his bid, which no rival removes.
2. Each phase of any contender keeps this. A stale round is cleared only when no bid is owned, and a bid wins only when no
   rival's bid is owned.
3. `mutual_exclusion`: so it holds after any sequence of phases, releases and clock moves on an empty lock row. The phases
   need not come in the order of an attempt and may be left out, so attempts may be given up anywhere.
-/
import RowFiles.Proofs.Lock.Arena

namespace RowFiles.Contest

open Run

variable {τ μ ι : Type} {g : Contest τ μ ι}

/-! ## The invariant -/

/-- what is known of the row of the lock in the table `t` and of the owners -/
structure Exclusive (g : Contest τ μ ι) (t : Table Column) (owned : ι → Bool) : Prop where
  cells : ∀ c u, t.get g.name c = some u → (c = Lock.stateColumn ∧ u.length = 9) ∨
    ∃ i, c = g.signature i ∧
      ((owned i = false ∧ u = Bid.openCell (g.signature i)) ∨
        owned i = true ∧ ∃ time, u = Bid.ownedCell (g.signature i) time)
  held : ∀ i, owned i = true → ∃ time, t.get g.name (g.signature i) = some (Bid.ownedCell (g.signature i) time)
  single : ∀ i j, owned i = true → owned j = true → i = j

namespace Exclusive

variable {t : Table Column} {owned : ι → Bool}

theorem fresh (empty : ∀ c, t.get g.name c = none) (free : ∀ i, owned i = false) : g.Exclusive t owned := by
  refine ⟨fun c u hu => ?_, fun i hi => ?_, fun i j hi _ => ?_⟩
  · rw [empty] at hu
    cases hu
  · rw [free] at hi
    cases hi
  · rw [free] at hi
    cases hi

/-- a bid in the row is that of a contender, and owned if he owns the lock -/
theorem bid_of_cell (h : g.Exclusive t owned) {c : Column} {u : Bytes} {b : Bid} (hu : t.get g.name c = some u)
    (hb : Bid.ofCell? u = some b) : ∃ i, b = ⟨g.signature i, owned i⟩ := by
  rcases h.cells c u hu with ⟨_, long⟩ | ⟨i, _, ⟨hi, rfl⟩ | ⟨hi, time, rfl⟩⟩
  · rw [Bid.ofCell?_of_length long] at hb
    cases hb
  · rw [Bid.ofCell?_openCell] at hb
    cases hb
    exact ⟨i, by rw [hi]⟩
  · rw [Bid.ofCell?_ownedCell] at hb
    cases hb
    exact ⟨i, by rw [hi]⟩

/-- the owned bids in the row are those of the owners -/
theorem owned_bid_iff (h : g.Exclusive t owned) (x : UInt64) :
    (∃ c u, t.get g.name c = some u ∧ Bid.ofCell? u = some ⟨x, true⟩) ↔ ∃ i, g.signature i = x ∧ owned i = true := by
  constructor
  · intro hw
    obtain ⟨c, u, hu, hb⟩ := hw
    obtain ⟨i, hi⟩ := h.bid_of_cell hu hb
    rw [Bid.mk.injEq] at hi
    exact ⟨i, hi.1.symm, hi.2.symm⟩
  · intro hw
    obtain ⟨i, rfl, hi⟩ := hw
    obtain ⟨time, hu⟩ := h.held i hi
    exact ⟨_, _, hu, Bid.ofCell?_ownedCell _ _⟩

/-! ### What keeps the invariant -/

theorem putState (h : g.Exclusive t owned) (st : LockState) (time : UInt64) :
    g.Exclusive (t.put g.name Lock.stateColumn (st.cell time)) owned := by
  refine ⟨fun c u hu => ?_, fun i hi => ?_, h.single⟩
  · rw [Table.get_put] at hu
    split_ifs at hu with e
    · cases hu
      exact .inl ⟨e.2.symm, st.length_cell time⟩
    · exact h.cells c u hu
  · obtain ⟨time, hu⟩ := h.held i hi
    refine ⟨time, ?_⟩
    rw [Table.get_put, if_neg fun e => g.signature_ne_zero i e.2.symm]
    exact hu

/-- a cell that is no owner's may be removed -/
theorem drop (h : g.Exclusive t owned) {c : Column} (hc : ∀ i, owned i = true → g.signature i ≠ c) :
    g.Exclusive (t.deleteColumn g.name c) owned := by
  refine ⟨fun c' u hu => ?_, fun i hi => ?_, h.single⟩
  · rw [Table.get_deleteColumn] at hu
    split_ifs at hu
    exact h.cells c' u hu
  · obtain ⟨time, hu⟩ := h.held i hi
    refine ⟨time, ?_⟩
    rw [Table.get_deleteColumn, if_neg fun e => hc i hi e.2.symm]
    exact hu

theorem putBid (distinct : Function.Injective g.signature) (h : g.Exclusive t owned) {i : ι} (hi : owned i = false) :
    g.Exclusive (t.put g.name (g.signature i) (Bid.openCell (g.signature i))) owned := by
  refine ⟨fun c u hu => ?_, fun j hj => ?_, h.single⟩
  · rw [Table.get_put] at hu
    split_ifs at hu with e
    · cases hu
      exact .inr ⟨i, e.2.symm, .inl ⟨hi, rfl⟩⟩
    · exact h.cells c u hu
  · obtain ⟨time, hu⟩ := h.held j hj
    have other : i ≠ j := fun e => by rw [← e, hi] at hj; cases hj
    refine ⟨time, ?_⟩
    rw [Table.get_put, if_neg fun e => other (distinct e.2)]
    exact hu

variable [DecidableEq ι]

/-- the first owner -/
theorem win (h : g.Exclusive t owned) (free : ∀ j, owned j = false) (i : ι)
    (time : UInt64) :
    g.Exclusive (t.put g.name (g.signature i) (Bid.ownedCell (g.signature i) time)) (Function.update owned i true) := by
  have only : ∀ j, Function.update owned i true j = true → j = i := fun j hj => by
    by_contra hne
    rw [Function.update_of_ne hne, free] at hj
    cases hj
  refine ⟨fun c u hu => ?_, fun j hj => ?_, fun j k hj hk => ?_⟩
  · rw [Table.get_put] at hu
    split_ifs at hu with e
    · cases hu
      exact .inr ⟨i, e.2.symm, .inr ⟨Function.update_self .., time, rfl⟩⟩
    · rcases h.cells c u hu with state | ⟨j, rfl, bid⟩
      · exact .inl state
      · have hne : j ≠ i := fun he => e ⟨rfl, by rw [he]⟩
        refine .inr ⟨j, rfl, ?_⟩
        rw [Function.update_of_ne hne]
        exact bid
  · rw [only j hj]
    refine ⟨time, ?_⟩
    rw [Table.get_put, if_pos ⟨rfl, rfl⟩]
  · rw [only j hj, only k hk]

/-- a contender takes back his bid and no longer owns the lock -/
theorem release (distinct : Function.Injective g.signature) (h : g.Exclusive t owned) (i : ι) :
    g.Exclusive (t.deleteColumn g.name (g.signature i)) (Function.update owned i false) := by
  have others : ∀ j, Function.update owned i false j = true → j ≠ i ∧ owned j = true := fun j hj => by
    by_cases hne : j = i
    · rw [hne, Function.update_self] at hj
      cases hj
    · rw [Function.update_of_ne hne] at hj
      exact ⟨hne, hj⟩
  refine ⟨fun c u hu => ?_, fun j hj => ?_, fun j k hj hk => h.single j k (others j hj).2 (others k hk).2⟩
  · rw [Table.get_deleteColumn] at hu
    split_ifs at hu with e
    rcases h.cells c u hu with state | ⟨j, rfl, bid⟩
    · exact .inl state
    · have hne : j ≠ i := fun he => e ⟨rfl, by rw [he]⟩
      refine .inr ⟨j, rfl, ?_⟩
      rw [Function.update_of_ne hne]
      exact bid
  · obtain ⟨hne, hj⟩ := others j hj
    obtain ⟨time, hu⟩ := h.held j hj
    refine ⟨time, ?_⟩
    rw [Table.get_deleteColumn, if_neg fun e => hne (distinct e.2.symm)]
    exact hu

end Exclusive

/-! ## Phases -/

variable {D : τ → Table Column → Prop} {N : μ → Table Column → Prop} [DecidableEq ι]

/-- the exclusion as a property of what an arena shows -/
def Excludes (g : Contest τ μ ι) (v : Arena.View ι) : Prop := g.Exclusive v.data v.owned

/-- clearing away bids while nobody owns the lock -/
theorem removeBids_excludes (rel : g.Attends D N) (i : ι) (bs : List Bid) (v : Arena.View ι) (h : g.Excludes v)
    (free : ∀ j, v.owned j = false) :
    Yields (Arena.Shows D N) ((g.lock i).removeBids bs) v fun _ w => g.Excludes w ∧ w.owned = v.owned := by
  induction bs generalizing v with
  | nil => exact yields_pure () ⟨h, rfl⟩
  | cons b bs ih =>
    refine (rel.deleteColumn i v b.signature).step ?_
    refine ih _ (h.drop fun j hj => ?_) free
    rw [free] at hj
    cases hj

theorem clearStaleBids_excludes (rel : g.Attends D N) (i : ι) {v : Arena.View ι} (h : g.Excludes v) :
    Yields (Arena.Shows D N) (g.lock i).clearStaleBids v fun _ w => g.Excludes w ∧ w.owned = v.owned := by
  refine (rel.bids i v).bind ?_
  intro bs v e
  obtain ⟨mem, rfl⟩ := e
  split_ifs with someOwned
  · refine (rel.writeState i v .locked).step ?_
    exact yields_pure false ⟨h.putState _ _, rfl⟩
  · have free : ∀ j, v.owned j = false := fun j => by
      by_contra hj
      obtain ⟨time, hu⟩ := h.held j (by simpa using hj)
      refine someOwned (List.any_eq_true.2 ⟨⟨g.signature j, true⟩, (mem _).2 ⟨_, _, hu, ?_⟩, rfl⟩)
      exact Bid.ofCell?_ownedCell _ _
    refine (removeBids_excludes rel i bs v h free).bind ?_
    intro _ w hw
    exact yields_pure true hw

theorem canBid_excludes (rel : g.Attends D N) (i : ι) {v : Arena.View ι} (h : g.Excludes v) :
    Yields (Arena.Shows D N) (g.lock i).canBid v fun _ w => g.Excludes w ∧ w.owned = v.owned := by
  refine (rel.get i v Lock.stateColumn).next ?_
  split
  · exact yields_pure true ⟨h, rfl⟩
  · exact yields_pure true ⟨h, rfl⟩
  · split
    · exact yields_pure true ⟨h, rfl⟩
    · exact yields_pure false ⟨h, rfl⟩
    · split
      · exact yields_pure false ⟨h, rfl⟩
      · refine (now i v).next ?_
        dsimp only
        split_ifs
        · exact yields_pure false ⟨h, rfl⟩
        · exact clearStaleBids_excludes rel i h

theorem register_excludes (distinct : Function.Injective g.signature) (rel : g.Attends D N) (i : ι) {v : Arena.View ι}
    (h : g.Excludes v) (hi : v.owned i = false) :
    Yields (Arena.Shows D N) (g.lock i).register v fun _ w => g.Excludes w ∧ w.owned = v.owned := by
  refine (rel.writeState i v .trying).step ?_
  refine (rel.put i _ _ _).mono ?_
  intro _ _ hw
  subst hw
  exact ⟨(h.putState _ _).putBid distinct hi, rfl⟩

/-- a contender wins only while nobody owns the lock -/
theorem resolve_excludes (distinct : Function.Injective g.signature) (rel : g.Attends D N) (i : ι) {v : Arena.View ι}
    (h : g.Excludes v) (hi : v.owned i = false) :
    Yields (Arena.Shows D N) (g.lock i).resolve v fun yes w =>
      g.Excludes w ∧ w.owned = Function.update v.owned i yes ∧ (yes = true → ∀ j, v.owned j = false) := by
  have notMine : ∀ j, v.owned j = true → g.signature j ≠ g.signature i := fun j hj e => by
    rw [distinct e, hi] at hj
    cases hj
  have lost : v.owned = Function.update v.owned i false := (Function.update_eq_self_iff.2 hi.symm).symm
  refine (rel.bids i v).bind ?_
  intro bs v hw
  obtain ⟨mem, rfl⟩ := hw
  split_ifs with rival largest
  · refine (rel.deleteColumn i v _).step ?_
    refine (rel.writeState i _ .locked).step ?_
    exact yields_pure false ⟨(h.drop notMine).putState _ _, lost, nofun⟩
  · refine (rel.deleteColumn i v _).step ?_
    exact yields_pure false ⟨h.drop notMine, lost, nofun⟩
  · -- an owner would be a rival whose owned bid is in the row
    have free : ∀ j, v.owned j = false := fun j => by
      by_contra hj
      replace hj : v.owned j = true := by simpa using hj
      obtain ⟨time, hu⟩ := h.held j hj
      refine rival (List.any_eq_true.2 ⟨⟨g.signature j, true⟩, (mem _).2 ⟨_, _, hu, ?_⟩, ?_⟩)
      · exact Bid.ofCell?_ownedCell _ _
      · exact decide_eq_true (notMine j hj)
    refine (now i v).bind ?_
    intro time v hw
    obtain ⟨rfl, rfl⟩ := hw
    refine (rel.put i v _ _).step ?_
    refine (rel.writeState i _ .locked).step ?_
    refine (rel.setLength _ _ g.name 1).step ?_
    refine (setOwned i _ true).step ?_
    exact yields_pure true ⟨(h.win free i v.clock).putState _ _, rfl, fun _ => free⟩

theorem close_excludes (distinct : Function.Injective g.signature) (rel : g.Attends D N) (i : ι) {v : Arena.View ι}
    (h : g.Excludes v) : Yields (Arena.Shows D N) (g.lock i).close v fun _ w =>
      g.Excludes w ∧ w.owned = Function.update v.owned i false := by
  refine (rel.deleteColumn i v _).step ?_
  refine (owned i _).next ?_
  have released : g.Exclusive (v.data.deleteColumn g.name (g.signature i)) (Function.update v.owned i false) :=
    Exclusive.release distinct h i
  split_ifs with hi
  · refine (rel.deleteColumn i _ _).step ?_
    refine (rel.forget _ _ g.name).bind ?_
    intro _ w hw
    obtain ⟨data, owns⟩ := hw
    refine (setOwned i w false).mono ?_
    intro _ _ hw
    subst hw
    refine ⟨?_, congrArg (Function.update · i false) owns⟩
    simp only [Excludes, data, owns]
    exact released.drop fun j _ => g.signature_ne_zero j
  · have same : Function.update v.owned i false = v.owned := by
      replace hi : v.owned i = false := by simpa using hi
      exact Function.update_eq_self_iff.2 hi.symm
    rw [same] at released
    exact yields_pure () ⟨released, same.symm⟩

/-- a whole attempt: its answer is whether the contender owns the lock afterwards, and while another owns the lock the
answer is no -/
theorem obtain_excludes (distinct : Function.Injective g.signature) (rel : g.Attends D N) (i : ι) {v : Arena.View ι}
    (h : g.Excludes v) : Yields (Arena.Shows D N) (g.lock i).obtain v fun yes w =>
      g.Excludes w ∧ w.owned = Function.update v.owned i yes ∧ ∀ j, j ≠ i → v.owned j = true → yes = false := by
  refine (owned i v).next ?_
  have mine (yes : Bool) (hi : v.owned i = yes) : v.owned = Function.update v.owned i yes :=
    (Function.update_eq_self_iff.2 hi.symm).symm
  split_ifs with hi
  · exact yields_pure true ⟨h, mine true hi, fun j hj own => absurd (h.single j i own hi) hj⟩
  · replace hi : v.owned i = false := by simpa using hi
    have lost {w : Arena.View ι} (kept : w.owned = v.owned) :
        w.owned = Function.update v.owned i false ∧ ∀ j, j ≠ i → v.owned j = true → false = false :=
      ⟨kept.trans (mine false hi), fun _ _ _ => rfl⟩
    refine (canBid_excludes rel i h).bind ?_
    intro free w hw
    obtain ⟨hw, kept⟩ := hw
    split_ifs with no
    · exact yields_pure false ⟨hw, lost kept⟩
    · rw [pure_bind]
      refine (register_excludes distinct rel i hw (kept ▸ hi)).bind ?_
      intro _ u hu
      obtain ⟨hu, kept'⟩ := hu
      rw [pure_bind]
      refine (resolve_excludes distinct rel i hu (kept' ▸ kept ▸ hi)).mono ?_
      intro yes x hx
      obtain ⟨hx, changed, won⟩ := hx
      rw [kept', kept] at changed won
      refine ⟨hx, changed, fun j _ own => ?_⟩
      cases yes with
      | false => rfl
      | true =>
        rw [won rfl j] at own
        cases own

/-! ## Any sequence of phases -/

/-- what may happen next at a lock -/
inductive Move (ι : Type) where
  | canBid (i : ι)
  | register (i : ι)
  | resolve (i : ι)
  | close (i : ι)
  | clock (time : UInt64)

/-- a phase of an attempt; one who owns the lock does not attempt to take it -/
def attempt {α : Type} (g : Contest τ μ ι) (i : ι) (phase : Lock (Run (Arena τ μ ι)) → Run (Arena τ μ ι) α) :
    Run (Arena τ μ ι) Unit := do
  if !(← (g.lock i).owned.read) then
    let _ ← phase (g.lock i)

def move (g : Contest τ μ ι) : Move ι → Run (Arena τ μ ι) Unit
  | .canBid i => g.attempt i Lock.canBid
  | .register i => g.attempt i Lock.register
  | .resolve i => g.attempt i Lock.resolve
  | .close i => (g.lock i).close
  | .clock time => (Run.part Arena.clock fun time s => { s with clock := time }).write time

theorem attempt_excludes {α : Type} (i : ι) {phase : Lock (Run (Arena τ μ ι)) → Run (Arena τ μ ι) α} {v : Arena.View ι}
    (h : g.Excludes v)
    (keeps : v.owned i = false → Yields (Arena.Shows D N) (phase (g.lock i)) v fun _ w => g.Excludes w) :
    Yields (Arena.Shows D N) (g.attempt i phase) v fun _ w => g.Excludes w := by
  refine (owned i v).next ?_
  split_ifs with hi
  · refine (keeps (by simpa using hi)).bind ?_
    intro _ w hw
    exact yields_pure () hw
  · exact yields_pure () h

/-- one move keeps the exclusion -/
theorem move_excludes (distinct : Function.Injective g.signature) (rel : g.Attends D N) (m : Move ι) {v : Arena.View ι}
    (h : g.Excludes v) : Yields (Arena.Shows D N) (g.move m) v fun _ w => g.Excludes w := by
  cases m with
  | canBid i => exact attempt_excludes i h fun _ => (canBid_excludes rel i h).mono fun _ _ hw => hw.1
  | register i => exact attempt_excludes i h fun hi => (register_excludes distinct rel i h hi).mono fun _ _ hw => hw.1
  | resolve i => exact attempt_excludes i h fun hi => (resolve_excludes distinct rel i h hi).mono fun _ _ hw => hw.1
  | close i => exact (close_excludes distinct rel i h).mono fun _ _ hw => hw.1
  | clock time =>
    intro s hs
    exact ⟨{ v with clock := time }, ⟨hs.data, hs.names, hs.catalogs, rfl, hs.owned⟩, (), rfl, h⟩

theorem moves_exclude (distinct : Function.Injective g.signature) (rel : g.Attends D N) (moves : List (Move ι))
    {v : Arena.View ι} (h : g.Excludes v) :
    Yields (Arena.Shows D N) (moves.forM g.move) v fun _ w => g.Excludes w := by
  induction moves generalizing v with
  | nil => exact yields_pure () h
  | cons m moves ih =>
    exact (move_excludes distinct rel m h).bind fun _ w hw => ih hw

/-- **Mutual exclusion.** Contenders with different signatures on an empty lock row, in whatever order their phases come,
however the clock is moved and whenever a round counts as abandoned: no call fails, at most one contender owns the lock,
and the owned bids in the row are those of the owner. -/
theorem mutual_exclusion (g : Contest τ μ ι) (distinct : Function.Injective g.signature) (rel : g.Reliable D N)
    (s : Arena τ μ ι) (t m : Table Column) (data : D s.data t) (names : N s.names m)
    (empty : ∀ c, t.get g.name c = none) (free : ∀ i, s.owned i = false) (moves : List (Move ι)) :
    ∃ s' t', moves.forM g.move s = (.ok (), s') ∧ D s'.data t' ∧
      (∀ i j, s'.owned i = true → s'.owned j = true → i = j) ∧
      ∀ x, (∃ u ∈ t'.values g.name, u.length = 16 ∧ Bytes.toUInt64 u = x) ↔
        ∃ i, g.signature i = x ∧ s'.owned i = true := by
  have start : Arena.Shows D N s { s with data := t, names := m } := ⟨data, names, rfl, rfl, rfl⟩
  have fresh : g.Excludes { s with data := t, names := m } := Exclusive.fresh empty free
  obtain ⟨_, s', w, run, shows, exclusive⟩ := (moves_exclude distinct rel.attends moves fresh).run start
  refine ⟨s', w.data, run, shows.data, ?_, fun x => ?_⟩
  · rw [shows.owned]
    exact exclusive.single
  · rw [shows.owned, ← exclusive.owned_bid_iff]
    constructor
    · intro h
      obtain ⟨u, hu, long, rfl⟩ := h
      obtain ⟨c, hc⟩ := Table.mem_values.1 hu
      exact ⟨c, u, hc, by simp [Bid.ofCell?, long]⟩
    · intro h
      obtain ⟨c, u, hc, hb⟩ := h
      obtain ⟨long, bid⟩ := Bid.owned_of_cell hb
      exact ⟨u, Table.mem_values.2 ⟨c, hc⟩, long, bid⟩

/-- two contenders on a table: the first wins; the second bids late, finds the state stale, puts it back and loses; the
first closes and wins again -/
theorem mutual_exclusion_late_bidder :
    let g : Contest (Table Column) (Table Column) Bool :=
      ⟨"lock", Table.plainRows 64, Table.plainRows 64,
        fun late => { signature := if late then 9 else 4, expiry := some (.ofSeconds 30) }⟩
    let moves : List (Move Bool) := [.canBid false, .canBid true, .register false, .resolve false, .register true,
      .clock 40000, .canBid true, .resolve true, .close false, .canBid false, .register false, .close true, .resolve false]
    ∃ s' t', moves.forM g.move { data := .empty, names := .empty } = (.ok (), s') ∧ s'.data = t' ∧
      (∀ i j, s'.owned i = true → s'.owned j = true → i = j) ∧
      ∀ x, (∃ u ∈ t'.values g.name, u.length = 16 ∧ Bytes.toUInt64 u = x) ↔
        ∃ i, g.signature i = x ∧ s'.owned i = true :=
  mutual_exclusion (D := Eq) (N := Eq) _ (by rintro (_ | _) (_ | _) <;> decide)
    ⟨Table.plainRows_serve.scan_mono (fun _ _ h => h ▸ .refl _), Table.plainRows_trim,
      Table.plainRows_serve.scan_mono (fun _ _ h => h ▸ .refl _), Table.plainRows_trim⟩
    _ .empty .empty rfl rfl (fun _ => Table.get_empty _ _) (fun _ => rfl) _

end RowFiles.Contest
