/-
Abandoned bids do not block a free lock for good.

1. `Contest.Traced`: whatever lies in the row of a lock was left by contenders, an owned bid only by one who owns the lock,
   and the lock reads as held only while somebody owns it. Every phase keeps this.
2. `Contest.Steady`: if no call fails, owned bids stay while their owners own the lock, and if the clock does not go back,
   the state is not written in the future.
3. `Traced.stale_round_won`: a round that is old enough is cleared of its bids and won by whoever asks next.
   `Traced.round_left`: an attempt that is refused while nobody owns the lock leaves a round behind, not a held lock.
4. `abandoned_bids_expire`: so after any phases, given up anywhere, one expiry period is enough.
-/
import RowFiles.Proofs.Lock.Exclusion
import RowFiles.Proofs.Lock.Scenes

namespace RowFiles

open Run

/-! ## Ages -/

theorem not_young {now written : UInt64} {d : Duration} (h : written.toNat + d.millis ≤ now.toNat) :
    ¬ elapsed now written < d.age := by
  have small : d.millis < UInt64.size := Nat.lt_of_le_of_lt (Nat.le_of_add_left_le h) now.toNat_lt_size
  rw [UInt64.not_lt, age_le_elapsed_iff small]
  exact Nat.le_sub_of_add_le' h

namespace Scene

variable {ι : Type} {x y : Scene ι}

theorem state_of_absent (h : x.row Lock.stateColumn = none) : x.state = .unlocked := by
  rw [state, h]

/-- a bid beside the state is the only one in a row without bids -/
theorem bids_enter (none : ∀ b, ¬ x.Bids b) (g : UInt64) (b : Bid) : (x.enter g).Bids b ↔ b = ⟨g, false⟩ := by
  have row (c : Column) : (x.enter g).row c = if c = g then some (Bid.openCell g) else
      if c = Lock.stateColumn then some (LockState.trying.cell x.clock) else x.row c := by
    rw [enter, row_put, putState, row_put]
  constructor
  · rintro ⟨c, u, hu, hb⟩
    rw [row] at hu
    split_ifs at hu
    · obtain rfl := Option.some.inj hu
      rw [Bid.ofCell?_openCell] at hb
      exact (Option.some.inj hb).symm
    · obtain rfl := Option.some.inj hu
      rw [Bid.ofCell?_of_length (LockState.length_cell _ _)] at hb
      cases hb
    · exact absurd ⟨c, u, hu, hb⟩ (none b)
  · rintro rfl
    exact ⟨g, Bid.openCell g, (row g).trans (if_pos rfl), Bid.ofCell?_openCell g⟩

/-- who has the only bid wins -/
theorem Resolved.won_of_only [DecidableEq ι] {i : ι} {g : UInt64} {yes : Bool} (h : x.Resolved i g yes y)
    (only : ∀ b, x.Bids b ↔ b = ⟨g, false⟩) : yes = true := by
  cases h with
  | beaten rival =>
    obtain ⟨b, hb, owned, _⟩ := rival
    rw [(only b).1 hb] at owned
    cases owned
  | outbid _ larger =>
    obtain ⟨b, hb, less⟩ := larger ⟨_, (only _).2 rfl, rfl⟩
    rw [(only b).1 hb] at less
    exact absurd less (Nat.lt_irrefl _)
  | won => rfl

/-- who enters a row without bids wins, if no rival does -/
theorem Resolved.won_of_entered [DecidableEq ι] {i : ι} {g : UInt64} {yes : Bool} {time time' : Option UInt64}
    (h : (((x.pass time).enter g).pass time').Resolved i g yes y) (none : ∀ b, ¬ x.Bids b) : yes = true :=
  h.won_of_only fun b => bids_enter (x := x.pass time) none g b

end Scene

namespace Contest

variable {τ μ ι : Type} {g : Contest τ μ ι}

/-- a free lock without bids is won -/
theorem Attempted.won_of_free [DecidableEq ι] {i : ι} {a : Attempt} {x y : Scene ι} {yes : Bool}
    (attempted : g.Attempted i a x yes y) (unlocked : x.state = .unlocked) (none : ∀ b, ¬ x.Bids b) : yes = true := by
  cases attempted with
  | owner => rfl
  | refused _ asked =>
    cases asked with
    | held locked => exact absurd (unlocked.symm.trans locked) nofun
    | early trying | restored trying => exact absurd (unlocked.symm.trans trying) nofun
  | decided _ asked resolved =>
    cases asked with
    | free => exact resolved.won_of_entered (x := x.atTime a.asked) none
    | cleared trying => exact absurd (unlocked.symm.trans trying) nofun

/-! ## Traces of contenders -/

/-- what lies in the row is a state, and bids of contenders that are active -/
structure Traced (g : Contest τ μ ι) (active : ι → Prop) (x : Scene ι) : Prop where
  cells : ∀ c u, x.row c = some u →
    (c = Lock.stateColumn ∧ ∃ st time, st ≠ .unlocked ∧ u = LockState.cell st time) ∨
    ∃ i, active i ∧ c = g.signature i ∧ (u = Bid.openCell c ∨ x.owned i = true ∧ ∃ time, u = Bid.ownedCell c time)
  locked : x.state = .locked → ∃ i, x.owned i = true
  owners : ∀ i, x.owned i = true → active i

namespace Traced

variable {active : ι → Prop} {x y : Scene ι} {i : ι} {b : Bid}

theorem of_empty (empty : ∀ c, x.row c = none) (free : ∀ i, x.owned i = false) : g.Traced active x := by
  refine ⟨fun c u hu => ?_, fun locked => ?_, fun i hi => ?_⟩
  · rw [empty] at hu
    cases hu
  · rw [Scene.state_of_absent (empty _)] at locked
    cases locked
  · rw [free] at hi
    cases hi

theorem mono {active' : ι → Prop} (h : g.Traced active x) (sub : ∀ i, active i → active' i) : g.Traced active' x := by
  refine ⟨fun c u hu => ?_, h.locked, fun i hi => sub i (h.owners i hi)⟩
  exact (h.cells c u hu).imp id fun ⟨i, hi, bid⟩ => ⟨i, sub i hi, bid⟩

/-- a bid lies in the column of its signature, and an owned one is an owner's -/
theorem bid (h : g.Traced active x) {c : Column} {u : Bytes} (hu : x.row c = some u) (hb : Bid.ofCell? u = some b) :
    b.signature = c ∧ ∃ i, active i ∧ c = g.signature i ∧ (b.owned = true → x.owned i = true) := by
  rcases h.cells c u hu with ⟨_, st, time, _, rfl⟩ | ⟨i, hi, hc, rfl | ⟨own, time, rfl⟩⟩
  · rw [Bid.ofCell?_of_length (st.length_cell time)] at hb
    cases hb
  · rw [Bid.ofCell?_openCell] at hb
    obtain rfl := Option.some.inj hb
    exact ⟨rfl, i, hi, hc, nofun⟩
  · rw [Bid.ofCell?_ownedCell] at hb
    obtain rfl := Option.some.inj hb
    exact ⟨rfl, i, hi, hc, fun _ => own⟩

theorem owner_of_bid (h : g.Traced active x) (hb : x.Bids b) (owned : b.owned = true) : ∃ i, x.owned i = true := by
  obtain ⟨c, u, hu, hb⟩ := hb
  obtain ⟨_, i, _, _, own⟩ := h.bid hu hb
  exact ⟨i, own owned⟩

theorem open_of_free (h : g.Traced active x) (free : ∀ i, x.owned i = false) (hb : x.Bids b) : b.owned = false := by
  by_contra owned
  obtain ⟨i, own⟩ := h.owner_of_bid hb (eq_true_of_ne_false owned)
  rw [free] at own
  cases own

/-- a row without bids, as all that bid are inactive -/
theorem no_bids (h : g.Traced active x) (none : ∀ i, ¬ active i) : ¬ x.Bids b := by
  rintro ⟨c, u, hu, hb⟩
  obtain ⟨_, i, hi, _⟩ := h.bid hu hb
  exact none i hi

/-- a row whose bids are removed has none left -/
theorem bids_removed (h : g.Traced active x) {cs : List Column} (bids : ∀ b, x.Bids b → b.signature ∈ cs) :
    ¬ (x.without cs).Bids b := by
  rintro ⟨c, u, hu, hb⟩
  replace hu : (if c ∈ cs then none else x.row c) = some u := hu
  split_ifs at hu with removed
  obtain ⟨rfl, _⟩ := h.bid hu hb
  exact removed (bids b ⟨_, u, hu, hb⟩)

theorem state_ne_locked (h : g.Traced active x) (free : ∀ i, x.owned i = false) : x.state ≠ .locked := by
  intro locked
  obtain ⟨i, own⟩ := h.locked locked
  rw [free] at own
  cases own

/-- a state that is there is that of a round -/
theorem state_trying (h : g.Traced active x) (free : ∀ i, x.owned i = false) {u : Bytes}
    (cell : x.row Lock.stateColumn = some u) : x.state = .trying := by
  rcases h.cells _ u cell with ⟨_, st, time, used, rfl⟩ | ⟨i, _, zero, _⟩
  · have state : x.state = st := by
      rw [Scene.state, cell]
      exact LockState.ofByte_toByte st
    cases st with
    | unlocked => exact absurd rfl used
    | trying => exact state
    | locked => exact absurd state (h.state_ne_locked free)
  · exact absurd zero.symm (g.signature_ne_zero i)

/-! ### What keeps the traces -/

/-- cells may go -/
theorem lose (h : g.Traced active x) (rows : ∀ c u, y.row c = some u → x.row c = some u) (owned : y.owned = x.owned) :
    g.Traced active y := by
  refine ⟨fun c u hu => ?_, fun locked => ?_, ?_⟩
  · rw [owned]
    exact h.cells c u (rows c u hu)
  · rw [owned]
    cases hu : y.row Lock.stateColumn with
    | none =>
      rw [Scene.state_of_absent hu] at locked
      cases locked
    | some u =>
      refine h.locked ?_
      rw [← locked]
      exact Scene.state_congr ((rows _ _ hu).trans hu.symm)
  · rw [owned]
    exact h.owners

theorem drop (h : g.Traced active x) (c : Column) : g.Traced active (x.drop c) := by
  refine h.lose (fun c' u hu => ?_) rfl
  rw [Scene.row_drop] at hu
  split_ifs at hu
  exact hu

theorem without (h : g.Traced active x) (cs : List Column) : g.Traced active (x.without cs) := by
  refine h.lose (fun c u hu => ?_) rfl
  replace hu : (if c ∈ cs then none else x.row c) = some u := hu
  split_ifs at hu
  exact hu

theorem atTime (h : g.Traced active x) (time : UInt64) : g.Traced active (x.atTime time) := h.lose (fun _ _ => id) rfl

theorem pass (h : g.Traced active x) (time : Option UInt64) : g.Traced active (x.pass time) := h.atTime _

theorem putState (h : g.Traced active x) {st : LockState} (used : st ≠ .unlocked)
    (owner : st = .locked → ∃ i, x.owned i = true) : g.Traced active (x.putState st) := by
  refine ⟨fun c u hu => ?_, fun locked => ?_, h.owners⟩
  · rw [Scene.putState, Scene.row_put] at hu
    split_ifs at hu with e
    · exact .inl ⟨e, st, x.clock, used, (Option.some.inj hu).symm⟩
    · exact h.cells c u hu
  · rw [Scene.state_putState] at locked
    exact owner locked

theorem putTrying (h : g.Traced active x) : g.Traced active (x.putState .trying) := h.putState nofun nofun

theorem putLocked (h : g.Traced active x) (owner : ∃ i, x.owned i = true) : g.Traced active (x.putState .locked) :=
  h.putState nofun fun _ => owner

theorem putBid (h : g.Traced active x) (hi : active i) :
    g.Traced active (x.put (g.signature i) (Bid.openCell (g.signature i))) := by
  refine ⟨fun c u hu => ?_, fun locked => h.locked ?_, h.owners⟩
  · rw [Scene.row_put] at hu
    split_ifs at hu with e
    · subst e
      exact .inr ⟨i, hi, rfl, .inl (Option.some.inj hu).symm⟩
    · exact h.cells c u hu
  · rw [← locked]
    exact Scene.state_congr ((x.row_put ..).trans (if_neg (g.signature_ne_zero i).symm)).symm

theorem enter (h : g.Traced active x) (hi : active i) : g.Traced active (x.enter (g.signature i)) :=
  h.putTrying.putBid hi

theorem asked {expiry : Option Duration} {yes : Bool} (h : g.Traced active x) (ha : x.Asked expiry yes y) :
    g.Traced active y := by
  cases ha with
  | free | held | early => exact h
  | restored _ owner =>
    obtain ⟨b, hb, owned⟩ := owner
    exact h.putLocked (h.owner_of_bid hb owned)
  | cleared => exact h.without _

/-- once the bid is made -/
theorem entered {a : Attempt} (h : g.Traced active x) (hi : active i)
    (asked : (x.atTime a.asked).Asked (g.contender i).expiry true y) :
    g.Traced active (((y.pass a.bid).enter (g.signature i)).pass a.settled) :=
  ((((h.atTime _).asked asked).pass _).enter hi).pass _

variable [DecidableEq ι]

theorem win (h : g.Traced active x) (hi : active i) (time : UInt64) :
    g.Traced active (((x.put (g.signature i) (Bid.ownedCell (g.signature i) time)).putState .locked).setOwned i true) := by
  have stays (j : ι) (own : x.owned j = true) : Function.update x.owned i true j = true := by
    rw [Function.update_apply]
    split_ifs
    · rfl
    · exact own
  refine ⟨fun c u hu => ?_, fun _ => ⟨i, Function.update_self ..⟩, fun j hj => ?_⟩
  · replace hu : ((x.put (g.signature i) (Bid.ownedCell (g.signature i) time)).putState .locked).row c = some u := hu
    rw [Scene.putState, Scene.row_put] at hu
    split_ifs at hu with e
    · exact .inl ⟨e, .locked, _, nofun, (Option.some.inj hu).symm⟩
    rw [Scene.row_put] at hu
    split_ifs at hu with mine
    · subst mine
      exact .inr ⟨i, hi, rfl, .inr ⟨Function.update_self .., time, (Option.some.inj hu).symm⟩⟩
    · refine (h.cells c u hu).imp id fun ⟨j, hj, hc, bid⟩ => ⟨j, hj, hc, bid.imp id fun ⟨own, owned⟩ => ?_⟩
      exact ⟨stays j own, owned⟩
  · by_cases e : j = i
    · exact e ▸ hi
    · exact h.owners j ((Function.update_of_ne e ..).symm.trans hj)

/-- who closes leaves no bid behind, and owns nothing -/
theorem closed (h : g.Traced active x) (i : ι) :
    g.Traced (fun j => active j ∧ j ≠ i) (x.closed i (g.signature i)) := by
  have others (c : Column) (u : Bytes) (hu : (x.drop (g.signature i)).row c = some u) :
      (c = Lock.stateColumn ∧ ∃ st time, st ≠ .unlocked ∧ u = LockState.cell st time) ∨
      ∃ j, (active j ∧ j ≠ i) ∧ c = g.signature j ∧
        (u = Bid.openCell c ∨ x.owned j = true ∧ ∃ time, u = Bid.ownedCell c time) := by
    rw [Scene.row_drop] at hu
    split_ifs at hu with mine
    refine (h.cells c u hu).imp id ?_
    rintro ⟨j, hj, hc, bid⟩
    refine ⟨j, ⟨hj, fun e => mine ?_⟩, hc, bid⟩
    rw [hc, e]
  rw [Scene.closed]
  split_ifs with own
  · refine ⟨fun c u hu => ?_, fun locked => ?_, fun j hj => ?_⟩
    · replace hu : ((x.drop (g.signature i)).drop Lock.stateColumn).row c = some u := hu
      rw [Scene.row_drop] at hu
      split_ifs at hu
      refine (others c u hu).imp id ?_
      rintro ⟨j, hj, hc, bid⟩
      refine ⟨j, hj, hc, bid.imp id ?_⟩
      rintro ⟨own, owned⟩
      exact ⟨(Function.update_of_ne hj.2 ..).trans own, owned⟩
    · rw [Scene.state_setOwned, Scene.state_of_absent ((Scene.row_drop ..).trans (if_pos rfl))] at locked
      cases locked
    · by_cases e : j = i
      · rw [e] at hj
        exact absurd ((Function.update_self ..).symm.trans hj) Bool.false_ne_true
      · exact ⟨h.owners j ((Function.update_of_ne e ..).symm.trans hj), e⟩
  · refine ⟨others, (h.drop _).locked, fun j hj => ⟨h.owners j hj, fun e => own (e ▸ hj)⟩⟩

theorem resolved {yes : Bool} (h : g.Traced active x) (hi : active i) (hr : x.Resolved i (g.signature i) yes y) :
    g.Traced active y := by
  cases hr with
  | beaten rival =>
    obtain ⟨b, hb, owned, _⟩ := rival
    exact (h.drop _).putLocked (h.owner_of_bid hb owned)
  | outbid => exact h.drop _
  | won => exact h.win hi _

theorem attempted {a : Attempt} {yes : Bool} (h : g.Traced active x) (hi : active i) (ha : g.Attempted i a x yes y) :
    g.Traced active y := by
  cases ha with
  | owner => exact h.atTime _
  | refused _ asked => exact (h.atTime _).asked asked
  | decided _ asked resolved => exact (h.entered hi asked).resolved hi resolved

/-! ### Rounds that are won -/

/-- **A round that is old enough is won** by whoever asks while nobody owns the lock. -/
theorem stale_round_won (h : g.Traced active x) (free : ∀ j, x.owned j = false) (trying : x.state = .trying)
    {d : Duration} (expires : (g.contender i).expiry = some d) {a : Attempt}
    (stale : x.written.toNat + d.millis ≤ a.asked.toNat) {yes : Bool} (attempted : g.Attempted i a x yes y) :
    yes = true := by
  replace h := h.atTime a.asked
  cases attempted with
  | owner => rfl
  | refused _ asked =>
    cases asked with
    | held locked => exact absurd (trying.symm.trans locked) nofun
    | early _ young => exact absurd (young d expires) (not_young stale)
    | restored _ owner =>
      obtain ⟨b, hb, owned⟩ := owner
      rw [h.open_of_free free hb] at owned
      cases owned
  | decided _ asked resolved =>
    cases asked with
    | free unlocked => exact absurd (trying.symm.trans unlocked) nofun
    | cleared _ _ cs bids => exact resolved.won_of_entered fun b => h.bids_removed bids

/-- an attempt that is refused while nobody owns the lock leaves a round behind, not a held lock -/
theorem round_left (h : g.Traced active x) (hi : active i) (free : ∀ j, x.owned j = false) {a : Attempt}
    (attempted : g.Attempted i a x false y) : y.state = .trying ∧ ∀ j, y.owned j = false := by
  cases attempted with
  | refused _ asked =>
    cases asked with
    | held locked => exact absurd locked (h.state_ne_locked free)
    | early trying => exact ⟨trying, free⟩
    | restored _ owner =>
      obtain ⟨b, hb, owned⟩ := owner
      rw [h.open_of_free free hb] at owned
      cases owned
  | @decided z _ _ _ asked resolved =>
    have owners : z.owned = x.owned := by cases asked <;> rfl
    replace free : ∀ j, z.owned j = false := fun j => (congrFun owners j).trans (free j)
    cases resolved with
    | beaten rival =>
      obtain ⟨b, hb, owned, _⟩ := rival
      rw [(h.entered hi asked).open_of_free free hb] at owned
      cases owned
    | outbid =>
      refine ⟨?_, free⟩
      calc ((((z.pass a.bid).enter (g.signature i)).pass a.settled).drop (g.signature i)).state
          = ((z.pass a.bid).enter (g.signature i)).state := Scene.state_drop _ (g.signature_ne_zero i)
        _ = ((z.pass a.bid).putState .trying).state := Scene.state_put _ (g.signature_ne_zero i) _
        _ = .trying := Scene.state_putState ..

end Traced

/-! ## While no call fails -/

/-- what is left of others stays, and the state has been written by now -/
structure Steady (g : Contest τ μ ι) (x : Scene ι) : Prop where
  traced : g.Traced (fun _ => True) x
  held : ∀ i, x.owned i = true → ∃ time, x.row (g.signature i) = some (Bid.ownedCell (g.signature i) time)
  timely : x.written ≤ x.clock

namespace Steady

variable {x y : Scene ι} {i : ι}

theorem of_empty (empty : ∀ c, x.row c = none) (free : ∀ i, x.owned i = false) : g.Steady x := by
  refine ⟨.of_empty empty free, fun i hi => ?_, ?_⟩
  · rw [free] at hi
    cases hi
  · rw [Scene.written, empty]
    exact UInt64.zero_le

/-- the lock reads as held only while an owned bid is there -/
theorem owned_bid (h : g.Steady x) (locked : x.state = .locked) : ∃ c u, x.row c = some u ∧ u.length = 16 := by
  obtain ⟨i, hi⟩ := h.traced.locked locked
  obtain ⟨time, hu⟩ := h.held i hi
  exact ⟨_, _, hu, by simp [Bid.ownedCell]⟩

theorem atTime (h : g.Steady x) {time : UInt64} (later : x.clock ≤ time) : g.Steady (x.atTime time) :=
  ⟨h.traced.atTime time, h.held, UInt64.le_trans h.timely later⟩

theorem pass (h : g.Steady x) {time : Option UInt64} (later : ∀ t, time = some t → x.clock ≤ t) :
    g.Steady (x.pass time) := by
  cases time with
  | none => exact h
  | some t => exact h.atTime (later t rfl)

theorem putState (h : g.Steady x) {st : LockState} (traced : g.Traced (fun _ => True) (x.putState st)) :
    g.Steady (x.putState st) := by
  refine ⟨traced, fun i hi => ?_, ?_⟩
  · obtain ⟨time, hu⟩ := h.held i hi
    exact ⟨time, (x.row_put ..).trans ((if_neg (g.signature_ne_zero i)).trans hu)⟩
  · rw [Scene.written_putState]
    exact UInt64.le_refl _

theorem asked {expiry : Option Duration} {yes : Bool} (h : g.Steady x) (ha : x.Asked expiry yes y) :
    g.Steady y ∧ y.clock = x.clock ∧ y.owned = x.owned := by
  have traced := h.traced.asked ha
  cases ha with
  | free | held | early => exact ⟨h, rfl, rfl⟩
  | restored => exact ⟨h.putState traced, rfl, rfl⟩
  | cleared _ free cs bids =>
    refine ⟨⟨traced, fun i hi => ?_, ?_⟩, rfl, rfl⟩
    · -- an owner's bid would be an owned one
      obtain ⟨time, hu⟩ := h.held i hi
      exact absurd (free _ ⟨_, _, hu, Bid.ofCell?_ownedCell _ _⟩) nofun
    · show (((if Lock.stateColumn ∈ cs then none else x.row Lock.stateColumn).map LockState.writtenAt).getD 0) ≤ x.clock
      split_ifs
      · exact UInt64.zero_le
      · exact h.timely

variable (distinct : Function.Injective g.signature)

include distinct

/-- one who owns nothing may change his own column -/
theorem change_own (h : g.Steady x) (hi : x.owned i = false) (traced : g.Traced (fun _ => True) y)
    (others : ∀ c, c ≠ g.signature i → y.row c = x.row c) (owned : y.owned = x.owned) (clock : y.clock = x.clock) :
    g.Steady y := by
  refine ⟨traced, fun j hj => ?_, ?_⟩
  · rw [owned] at hj
    obtain ⟨time, hu⟩ := h.held j hj
    refine ⟨time, (others _ fun e => ?_).trans hu⟩
    rw [distinct e, hi] at hj
    cases hj
  · rw [Scene.written_congr (others _ (g.signature_ne_zero i).symm), clock]
    exact h.timely

theorem enter (h : g.Steady x) (hi : x.owned i = false) : g.Steady (x.enter (g.signature i)) :=
  (h.putState h.traced.putTrying).change_own distinct hi (h.traced.enter trivial)
    (fun _ hc => (Scene.row_put ..).trans (if_neg hc)) rfl rfl

theorem withdraw (h : g.Steady x) (hi : x.owned i = false) : g.Steady (x.drop (g.signature i)) :=
  h.change_own distinct hi (h.traced.drop _) (fun _ hc => (Scene.row_drop ..).trans (if_neg hc)) rfl rfl

variable [DecidableEq ι]

theorem resolved {yes : Bool} (h : g.Steady x) (hi : x.owned i = false) (hr : x.Resolved i (g.signature i) yes y) :
    g.Steady y ∧ y.clock = x.clock := by
  have traced := h.traced.resolved trivial hr
  cases hr with
  | beaten => exact ⟨(h.withdraw distinct hi).putState traced, rfl⟩
  | outbid => exact ⟨h.withdraw distinct hi, rfl⟩
  | won free =>
    refine ⟨⟨traced, fun j hj => ?_, ?_⟩, rfl⟩
    · -- the bid of another owner would be a rival's
      have only : j = i := by
        by_contra other
        obtain ⟨time, hu⟩ := h.held j ((Function.update_of_ne other ..).symm.trans hj)
        exact other (distinct (free _ ⟨_, _, hu, Bid.ofCell?_ownedCell _ _⟩ rfl))
      subst only
      refine ⟨x.clock, (Scene.row_put ..).trans ((if_neg (g.signature_ne_zero j)).trans ?_)⟩
      exact (x.row_put ..).trans (if_pos rfl)
    · show ((x.put (g.signature i) (Bid.ownedCell (g.signature i) x.clock)).putState .locked).written ≤ x.clock
      rw [Scene.written_putState]
      exact UInt64.le_refl _

theorem closed (h : g.Steady x) (i : ι) : g.Steady (x.closed i (g.signature i)) ∧
    (x.closed i (g.signature i)).clock = x.clock := by
  have traced : g.Traced (fun _ => True) (x.closed i (g.signature i)) := (h.traced.closed i).mono fun _ _ => trivial
  rw [Scene.closed] at traced ⊢
  split_ifs at traced ⊢ with own
  · refine ⟨⟨traced, fun j hj => ?_, ?_⟩, rfl⟩
    · have other : j ≠ i := fun e => by
        rw [e] at hj
        exact absurd ((Function.update_self ..).symm.trans hj) Bool.false_ne_true
      obtain ⟨time, hu⟩ := h.held j ((Function.update_of_ne other ..).symm.trans hj)
      refine ⟨time, (Scene.row_drop ..).trans ((if_neg (g.signature_ne_zero j)).trans ?_)⟩
      exact (x.row_drop ..).trans ((if_neg fun e => other (distinct e)).trans hu)
    · rw [Scene.written, Scene.row_setOwned, Scene.row_drop, if_pos rfl]
      exact UInt64.zero_le
  · exact ⟨h.withdraw distinct (eq_false_of_ne_true own), rfl⟩

end Steady

/-! ## Phases in any order, while the clock goes on -/

/-- the time after a move -/
def Move.until (now : UInt64) : Move ι → UInt64
  | .clock time => time
  | _ => now

/-- the clock never goes back -/
def Forward (now : UInt64) : List (Move ι) → Prop
  | [] => True
  | m :: moves => now ≤ m.until now ∧ Forward (m.until now) moves

variable {D : τ → Table Column → Prop} {N : μ → Table Column → Prop} [DecidableEq ι]

theorem attempt_yields {α : Type} {i : ι} {phase : Lock (Run (Arena τ μ ι)) → Run (Arena τ μ ι) α} {x : Scene ι}
    {Kept : Scene ι → Prop} (same : Kept x)
    (keeps : x.owned i = false → Yields (Arena.Sets D N g.name) (phase (g.lock i)) x fun _ y => Kept y) :
    Yields (Arena.Sets D N g.name) (g.attempt i phase) x fun _ y => Kept y := by
  refine (reads_owned x i).next ?_
  split_ifs with own
  · exact (keeps (by simpa using own)).bind fun _ y kept => yields_pure () kept
  · exact yields_pure () same

/-- one move -/
theorem move_steady (distinct : Function.Injective g.signature) (rel : g.Reliable D N) (m : Move ι) {x : Scene ι}
    (h : g.Steady x) (forward : x.clock ≤ m.until x.clock) :
    Yields (Arena.Sets D N g.name) (g.move m) x fun _ y => g.Steady y ∧ y.clock = m.until x.clock := by
  have serves := rel.fallible
  cases m with
  | canBid i =>
    refine attempt_yields ⟨h, rfl⟩ fun _ => ((serves.canBid i x).yields not_false).mono fun _ y asked => ?_
    obtain ⟨steady, clock, _⟩ := h.asked asked
    exact ⟨steady, clock⟩
  | register i =>
    refine attempt_yields ⟨h, rfl⟩ fun free => ((serves.register i x).yields not_false).mono fun _ y entered => ?_
    subst entered
    exact ⟨h.enter distinct free, rfl⟩
  | resolve i =>
    exact attempt_yields ⟨h, rfl⟩ fun free =>
      ((serves.resolve i x).yields not_false).mono fun _ y resolved => h.resolved distinct free resolved
  | close i =>
    refine ((serves.close i x).yields not_false).mono fun _ y closed => ?_
    subst closed
    exact h.closed distinct i
  | clock time =>
    refine (sets_clock x time).mono fun _ y passed => ?_
    subst passed
    exact ⟨h.atTime forward, rfl⟩

/-- any moves -/
theorem moves_steady (distinct : Function.Injective g.signature) (rel : g.Reliable D N) (moves : List (Move ι))
    {x : Scene ι} (h : g.Steady x) (forward : Forward x.clock moves) :
    Yields (Arena.Sets D N g.name) (moves.forM g.move) x fun _ y => g.Steady y := by
  induction moves generalizing x with
  | nil => exact yields_pure () h
  | cons m moves ih =>
    obtain ⟨now, later⟩ := forward
    refine (move_steady distinct rel m h now).bind fun _ y hy => ?_
    obtain ⟨steady, clock⟩ := hy
    exact ih steady (clock ▸ later)

/-- an attempt by itself -/
theorem Steady.attempted (distinct : Function.Injective g.signature) {x y : Scene ι} {i : ι} {a : Attempt} {yes : Bool}
    (h : g.Steady x) (follows : a.Follows x.clock) (attempted : g.Attempted i a x yes y) : g.Steady y := by
  replace h := h.atTime follows.asked
  cases attempted with
  | owner => exact h
  | refused _ asked => exact (h.asked asked).1
  | @decided z _ _ free asked resolved =>
    obtain ⟨steady, clock, owned⟩ := h.asked asked
    replace clock : z.clock = a.asked := clock
    replace free : z.owned i = false := (congrFun owned i).trans free
    have entered : g.Steady ((z.pass a.bid).enter (g.signature i)) :=
      (steady.pass fun t e => clock ▸ follows.bid t e).enter distinct free
    refine ((entered.pass fun t e => ?_).resolved distinct free resolved).1
    show a.bid.getD z.clock ≤ t
    rw [clock]
    exact follows.settled t e

/-- **Abandoned bids expire.** Contenders with different signatures on an empty lock row, in stores of which no call fails:
after any phases in any order, given up anywhere, while the clock does not go back, the state reads as held only if an owned
bid is in the row. And while nobody owns the lock, an attempt that nobody disturbs takes it, or is refused; then the next
attempt takes it, if it begins an expiry period later and nothing has been done between. -/
theorem abandoned_bids_expire (g : Contest τ μ ι) (distinct : Function.Injective g.signature) (rel : g.Reliable D N)
    (s : Arena τ μ ι) (t m : Table Column) (data : D s.data t) (names : N s.names m)
    (empty : ∀ c, t.get g.name c = none) (free : ∀ i, s.owned i = false) (moves : List (Move ι))
    (forward : Forward s.clock moves) :
    ∃ s' t', moves.forM g.move s = (.ok (), s') ∧ D s'.data t' ∧
      (∀ byte rest, t'.get g.name Lock.stateColumn = some (byte :: rest) → LockState.ofByte byte = .locked →
        ∃ u ∈ t'.values g.name, u.length = 16) ∧
      ((∀ i, s'.owned i = false) → ∀ i d, (g.contender i).expiry = some d → ∀ first : Attempt, first.Follows s'.clock →
        ∃ yes s₁, g.alone i first s' = (.ok yes, s₁) ∧ (yes = false → ∀ second : Attempt,
          s₁.clock.toNat + d.millis ≤ second.asked.toNat → ∃ s₂, g.alone i second s₁ = (.ok true, s₂))) := by
  have start : Arena.Sets D N g.name s ⟨t.get g.name, s.owned, s.clock⟩ := ⟨⟨t, data, fun _ => rfl⟩, ⟨m, names⟩, rfl, rfl⟩
  obtain ⟨_, s', x, run, sets, steady⟩ := (moves_steady distinct rel moves (.of_empty empty free) forward).run start
  obtain ⟨t', data', row⟩ := sets.data
  refine ⟨s', t', run, data', fun byte rest cell locked => ?_, fun free i d expires first follows => ?_⟩
  · have locked : x.state = .locked := by rw [Scene.state, ← row, cell]; exact locked
    obtain ⟨c, u, hu, long⟩ := steady.owned_bid locked
    exact ⟨u, Table.mem_values.2 ⟨c, (row c).trans hu⟩, long⟩
  · rw [sets.owned] at free
    rw [sets.clock] at follows
    have attempt (a : Attempt) (x : Scene ι) := (rel.fallible.alone i a x).yields not_false
    obtain ⟨yes, s₁, y, ran, sets₁, attempted⟩ := (attempt first x).run sets
    refine ⟨yes, s₁, ran, fun no second late => ?_⟩
    subst no
    obtain ⟨trying, free₁⟩ := steady.traced.round_left trivial free attempted
    have steady₁ := steady.attempted distinct follows attempted
    have stale : y.written.toNat + d.millis ≤ second.asked.toNat := by
      have := UInt64.le_iff_toNat_le.1 steady₁.timely
      rw [sets₁.clock] at late
      omega
    obtain ⟨yes, s₂, z, ran, _, attempted⟩ := (attempt second y).run sets₁
    obtain rfl := steady₁.traced.stale_round_won free₁ trying expires stale attempted
    exact ⟨s₂, ran⟩

/-- two contenders for a lock in a table, of whom a round is abandoned after thirty seconds -/
def ofTwoExpiring : Contest (Table Column) (Table Column) Bool :=
  ⟨"lock", Table.plainRows 64, Table.plainRows 64,
    fun large => { signature := if large then 9 else 4, expiry := some (.ofSeconds 30) }⟩

/-- the larger bid comes late and is given up, and the winner's close leaves it without a state: the smaller signature is
refused at first, and thirty seconds later takes the lock -/
theorem abandoned_bids_expire_after_close :
    let moves : List (Move Bool) :=
      [.canBid false, .canBid true, .register false, .clock 500, .resolve false, .register true, .close false]
    ∃ s s₁ s₂, moves.forM ofTwoExpiring.move { data := .empty, names := .empty } = (.ok (), s) ∧
      ofTwoExpiring.alone false { asked := 1000 } s = (.ok false, s₁) ∧
      ofTwoExpiring.alone false { asked := 31000 } s₁ = (.ok true, s₂) := by
  intro moves
  let start : Arena.View Bool := { data := .empty, names := .empty }
  obtain ⟨s, t, run, _, _, recovers⟩ := abandoned_bids_expire (D := Eq) (N := Eq) ofTwoExpiring
    (by rintro (_ | _) (_ | _) <;> decide) (reliable_of_tables ..) start .empty .empty
    rfl rfl (fun _ => Table.get_empty _ _) (fun _ => rfl) moves (by simp [moves, start, Forward, Move.until])
  obtain rfl : (moves.forM ofTwoExpiring.move start).2 = s := congrArg Prod.snd run
  obtain ⟨yes, s₁, first, again⟩ := recovers (by decide +kernel) false (.ofSeconds 30) rfl { asked := 1000 }
    ⟨by decide +kernel, nofun, nofun⟩
  obtain rfl : (ofTwoExpiring.alone false { asked := 1000 } (moves.forM ofTwoExpiring.move start).2).2 = s₁ :=
    congrArg Prod.snd first
  have refused : (ofTwoExpiring.alone false { asked := 1000 } (moves.forM ofTwoExpiring.move start).2).1 = .ok false := by
    decide +kernel
  obtain rfl : yes = false := Except.ok.inj ((congrArg Prod.fst first).symm.trans refused)
  obtain ⟨s₂, second⟩ := again rfl { asked := 31000 } (by decide +kernel)
  exact ⟨_, _, s₂, run, first, second⟩

end Contest

end RowFiles
