/-
Ages of any length.

Caches and locks compare an age with the time that has passed on a clock of 64 bits, in milliseconds. A duration may be
longer than such a clock runs. Of its milliseconds the age keeps what is left after whole turns of the clock
(`Duration.kept`), so an age of just a turn is none at all.

- `Duration.passed_mono_iff`: one age expires no earlier than another just if it keeps no less.
- `Frail.evicted_iff_passed`: a pass of evictions drops a clean cell just if what the age keeps has passed since its last
  access.
- `Contest.obtain_young`: an attempt leaves a round alone for as long as that.
- `ages_are_kept_in_64_bits`: both, for every duration; below a turn of the clock an age is the duration itself.
-/
import RowFiles.Proofs.Lock.Expiry
import RowFiles.Proofs.Store.Evictions

namespace RowFiles

open Run

namespace Duration

variable {d d' : Duration} {now since : UInt64}

/-- as much time has passed since a reading of the clock as the age keeps -/
def Passed (d : Duration) (now since : UInt64) : Prop := d.kept ≤ now.toNat - since.toNat

instance : Decidable (d.Passed now since) := inferInstanceAs (Decidable (_ ≤ _))

theorem passed_of_small (small : d.millis < UInt64.size) : d.Passed now since ↔ d.millis ≤ now.toNat - since.toNat := by
  rw [Passed, kept_of_small small]

/-- an age has always passed where another one has just if it keeps no more -/
theorem passed_mono_iff : (∀ now since, d'.Passed now since → d.Passed now since) ↔ d.kept ≤ d'.kept := by
  constructor
  · intro mono
    have fits : d'.kept < UInt64.size := Nat.mod_lt _ (by decide)
    have reading : (UInt64.ofNat d'.kept).toNat - (0 : UInt64).toNat = d'.kept := UInt64.toNat_ofNat_of_lt fits
    have passed : d.Passed (UInt64.ofNat d'.kept) 0 := by
      apply mono
      exact Nat.le_of_eq reading.symm
    rwa [Passed, reading] at passed
  · intro less now since passed
    exact Nat.le_trans less passed

end Duration

namespace Frail

variable {settings : CacheSettings} {walk : Nat → List (Address Column) → List (Address Column)}

/-- **A pass of evictions** drops a cell that was accessed just if it is clean and the age has passed since. -/
theorem evicted_iff_passed (perm : ∀ n as, (walk n as).Perm as) {age : Duration}
    (policy : settings.eviction = .lastRead age ∨ settings.eviction = .lastWrite age) (width : Nat)
    (refuse : Nat → Option Error) (t : Table Column) (now : UInt64) (steps : List Host.Step) :
    let start : Frail := { table := t, clock := now }
    let h := after settings width refuse walk steps start
    ∃ n x, (cacheOver settings width refuse walk).runEvictions h = (.ok n, { h with cache := x }) ∧
      ∀ a time, LastAccess settings width refuse walk start steps a time →
        (x.value? a = none ↔ a ∉ h.cache.marks ∧ age.Passed h.clock time) := by
  intro start h
  refine ⟨_, h.cache.evict settings.eviction h.clock, rfl, ?_⟩
  intro a time last
  have known : h.cache.times[a]? = some time := (times_told perm t now steps a time).2 last
  have cached : (h.cache.value? a).isSome := by
    obtain ⟨before, access, later, split, _, _, there, _⟩ := last
    have here := there later [] (by simp)
    rwa [← split] at here
  have dropped : a ∈ h.cache.evicted settings.eviction h.clock ↔ (h.cache.value? a).isSome ∧ a ∉ h.cache.marks ∧
      ∀ time, LastAccess settings width refuse walk start steps a time → age.kept ≤ h.clock.toNat - time.toNat :=
    mem_evicted_iff_kept perm policy t now steps a
  have passed : (∀ time, LastAccess settings width refuse walk start steps a time →
      age.kept ≤ h.clock.toNat - time.toNat) ↔ age.Passed h.clock time := by
    constructor
    · intro all
      exact all time last
    · intro here time' last'
      have known' : h.cache.times[a]? = some time' := (times_told perm t now steps a time').2 last'
      rw [known, Option.some.injEq] at known'
      exact known' ▸ here
  calc (h.cache.evict settings.eviction h.clock).value? a = none
      ↔ a ∈ h.cache.evicted settings.eviction h.clock := by
        rw [h.cache.value?_evict]
        obtain ⟨u, found⟩ := Option.isSome_iff_exists.1 cached
        simp [found]
    _ ↔ (h.cache.value? a).isSome ∧ a ∉ h.cache.marks ∧ ∀ time, LastAccess settings width refuse walk start steps a time →
          age.kept ≤ h.clock.toNat - time.toNat := dropped
    _ ↔ a ∉ h.cache.marks ∧ age.Passed h.clock time := by
        rw [passed]
        exact and_iff_right cached

end Frail

namespace Contest

variable {τ μ ι : Type} {g : Contest τ μ ι} {D : τ → Table Column → Prop} {N : μ → Table Column → Prop} {i : ι}
  {time : UInt64} {v : Arena.View ι}

theorem lapsed_iff_passed {d : Duration} (expiry : (g.contender i).expiry = some d) {now : UInt64} :
    g.Lapsed i time now ↔ d.Passed now time := by
  simp only [Lapsed, expiry, Option.some.injEq, exists_eq_left', Duration.Passed]

/-- **An attempt** leaves a row with a round that has not lapsed as it was, whatever else the row holds. -/
theorem obtain_young [DecidableEq ι] (rel : g.Attends D N) (i : ι) (free : v.owned i = false)
    (state : v.data.get g.name Lock.stateColumn = some (LockState.trying.cell time)) (young : ¬ g.Lapsed i time v.clock) :
    Yields (Arena.Shows D N) (g.lock i).obtain v fun yes w => yes = false ∧ w = v := by
  refine (owned i v).next ?_
  rw [free, if_neg Bool.false_ne_true]
  have refused : Yields (Arena.Shows D N) (g.lock i).canBid v fun yes w => yes = false ∧ w = v := by
    apply canBid_trying rel i state
    · intro _
      exact ⟨rfl, rfl⟩
    · intro old
      exact absurd old young
  apply refused.next
  exact yields_pure false ⟨rfl, rfl⟩

/-- one contender for a lock in plain tables, who takes rounds for abandoned after some time -/
def ofOneExpiring (d : Duration) : Contest (Table Column) (Table Column) Unit :=
  ⟨"lock", Table.plainRows 64, Table.plainRows 64, fun _ => { signature := 4, expiry := some d }⟩

end Contest

/-- **Ages are kept in 64 bits.** Let a cache or a lock be set to any duration. Below 2^64 milliseconds its age passes just
when the duration has. In general what is left of it after whole turns of the clock counts, and one age expires no earlier
than another just if it keeps no less. After any run of a cache that drops cells by age, a pass of evictions drops a cell
that was accessed just if it is clean and the age has passed since. While somebody's age has not passed since a round for
a lock began, his attempt is refused and changes nothing, whatever the row of the lock holds; once it has, he takes the lock
from any bids. -/
theorem ages_are_kept_in_64_bits (d : Duration) :
    (d.millis < UInt64.size → ∀ now since, d.Passed now since ↔ d.millis ≤ now.toNat - since.toNat) ∧
    (∀ d' : Duration, (∀ now since, d'.Passed now since → d.Passed now since) ↔ d.kept ≤ d'.kept) ∧
    (∀ (settings : CacheSettings) (width : Nat) (refuse : Nat → Option Error)
        (walk : Nat → List (Address Column) → List (Address Column)) (t : Table Column) (now : UInt64)
        (steps : List Host.Step), (∀ n as, (walk n as).Perm as) →
      settings.eviction = .lastRead d ∨ settings.eviction = .lastWrite d →
      let start : Frail := { table := t, clock := now }
      let h := Frail.after settings width refuse walk steps start
      ∃ n x, (Frail.cacheOver settings width refuse walk).runEvictions h = (.ok n, { h with cache := x }) ∧
        ∀ a time, Frail.LastAccess settings width refuse walk start steps a time →
          (x.value? a = none ↔ a ∉ h.cache.marks ∧ d.Passed h.clock time)) ∧
    ∀ (τ μ ι : Type) [DecidableEq ι] (g : Contest τ μ ι) (D : τ → Table Column → Prop) (N : μ → Table Column → Prop)
        (i : ι) (s : Arena τ μ ι) (v : Arena.View ι) (time : UInt64), g.Reliable D N → (g.contender i).expiry = some d →
      Arena.Shows D N s v → s.owned i = false →
      v.data.get g.name Lock.stateColumn = some (LockState.trying.cell time) →
      (¬ d.Passed s.clock time → ∃ s', (g.lock i).obtain s = (.ok false, s') ∧ Arena.Shows D N s' v) ∧
        (d.Passed s.clock time → ∀ bids, g.Round time bids v.data →
          ∃ s' w, (g.lock i).obtain s = (.ok true, s') ∧ Arena.Shows D N s' w ∧ g.TakenOver i v w) := by
  refine ⟨fun small now since => Duration.passed_of_small small, fun d' => Duration.passed_mono_iff, ?_, ?_⟩
  · intro settings width refuse walk t now steps perm policy
    exact Frail.evicted_iff_passed perm policy width refuse t now steps
  · intro τ μ ι _ g D N i s v time rel expiry shows free state
    have free' : v.owned i = false := by rw [← free, shows.owned]
    rw [shows.clock, ← Contest.lapsed_iff_passed expiry]
    constructor
    · intro young
      obtain ⟨_, s', _, run, shows', rfl, rfl⟩ := (Contest.obtain_young rel.attends i free' state young).run shows
      exact ⟨s', run, shows'⟩
    · intro old bids round
      obtain ⟨yes, s', w, run, shows', lapsed, left⟩ := (Contest.obtain_lapsed rel.attends i free' round).run shows
      obtain rfl : yes = true := lapsed.2 old
      exact ⟨s', w, run, shows', left⟩

/-- a turn of the clock and five milliseconds: a cell stays, and a round is left alone, for the five milliseconds -/
theorem ages_are_kept_in_64_bits_past_a_turn :
    let d : Duration := ⟨18446744073709551, 621000000⟩
    let settings : CacheSettings := { eviction := .lastRead d }
    let calm : Nat → Option Error := fun _ => none
    let walk : Nat → List (Address Column) → List (Address Column) := fun _ => List.reverse
    let run (now : UInt64) : Frail := Frail.after settings 4 calm walk
      [.call (.put "a" 0 [1]), .flush false, .call (.get "a" 0), .clock now] { table := .empty, clock := 5 }
    let evicted (now : UInt64) : Frail := ((Frail.cacheOver settings 4 calm walk).runEvictions (run now)).2
    let row := (Table.empty.put "lock" 0 (LockState.trying.cell 5)).put "lock" 9 (Bid.openCell 9)
    let s (now : UInt64) : Arena.View Unit := { data := row, names := .empty, clock := now }
    let g := Contest.ofOneExpiring d
    d.millis = UInt64.size + 5 ∧ (evicted 9).cache.value? ⟨"a", 0⟩ ≠ none ∧ (evicted 10).cache.value? ⟨"a", 0⟩ = none ∧
      (g.lock ()).obtain (s 9) = (.ok false, s 9) ∧ ((g.lock ()).obtain (s 10)).1 = .ok true := by
  intro d settings calm walk run evicted row s g
  obtain ⟨_, _, evicts, attempts⟩ := ages_are_kept_in_64_bits d
  have evicted_iff (now : UInt64) (read : (run now).cache.times[(⟨"a", 0⟩ : Address Column)]? = some 5) :
      (evicted now).cache.value? ⟨"a", 0⟩ = none ↔ ⟨"a", 0⟩ ∉ (run now).cache.marks ∧ d.Passed (run now).clock 5 := by
    have perm : ∀ n as, (walk n as).Perm as := fun _ as => List.reverse_perm as
    obtain ⟨_, x, ran, exactly⟩ := evicts settings 4 calm walk .empty 5
      [.call (.put "a" 0 [1]), .flush false, .call (.get "a" 0), .clock now] perm (.inl rfl)
    have same : evicted now = { run now with cache := x } := congrArg Prod.snd ran
    rw [same]
    exact exactly ⟨"a", 0⟩ 5 ((Frail.times_told perm .empty 5 _ _ _).1 read)
  have round : g.Round 5 [9] row := (Contest.Round.begun (fun _ _ => Table.get_empty _ _) 5).bid (by decide)
  have attempt (now : UInt64) := attempts _ _ _ g Eq Eq () (s now) (s now) 5 (Contest.reliable_of_tables ..) rfl
    ⟨rfl, rfl, rfl, rfl, rfl⟩ rfl round.state
  refine ⟨by decide, ?_, ?_, ?_, ?_⟩
  · rw [ne_eq, evicted_iff 9 (by decide +kernel)]
    decide +kernel
  · rw [evicted_iff 10 (by decide +kernel)]
    decide +kernel
  · obtain ⟨s', ran, shows⟩ := (attempt 9).1 (by decide)
    rw [ran, shows.eq]
  · obtain ⟨s', _, ran, _⟩ := (attempt 10).2 (by decide) [9] round
    rw [ran]

/-- an age of a turn of the clock is none: a cell that has just been read is dropped, which ten milliseconds would keep, and
a round that has just begun is taken over -/
theorem age_of_a_turn_is_none :
    let d : Duration := ⟨18446744073709551, 616000000⟩
    let calm : Nat → Option Error := fun _ => none
    let walk : Nat → List (Address Column) → List (Address Column) := fun _ => List.reverse
    let steps : List Host.Step := [.call (.put "a" 0 [1]), .flush false, .call (.get "a" 0)]
    let start : Frail := { table := .empty, clock := 5 }
    let evicted (age : Duration) : Frail := ((Frail.cacheOver { eviction := .lastRead age } 4 calm walk).runEvictions
      (Frail.after { eviction := .lastRead age } 4 calm walk steps start)).2
    let row := (Table.empty.put "lock" 0 (LockState.trying.cell 5)).put "lock" 9 (Bid.openCell 9)
    let s : Arena.View Unit := { data := row, names := .empty, clock := 5 }
    (0 < d.millis ∧ Duration.millis (.ofMillis 10) < d.millis) ∧
      Frail.LastAccess { eviction := .lastRead d } 4 calm walk start steps ⟨"a", 0⟩ 5 ∧
      (evicted d).cache.value? ⟨"a", 0⟩ = none ∧ (evicted (.ofMillis 10)).cache.value? ⟨"a", 0⟩ = some [1] ∧
      (((Contest.ofOneExpiring d).lock ()).obtain s).1 = .ok true := by
  intro d calm walk steps start evicted row s
  refine ⟨by decide, ?_, by decide +kernel, by decide +kernel, by decide +kernel⟩
  exact (Frail.times_told (fun _ as => List.reverse_perm as) .empty 5 steps _ _).1 (by decide +kernel)

end RowFiles
