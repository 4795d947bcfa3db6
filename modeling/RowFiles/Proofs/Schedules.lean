/-
What a schedule serves, and when.

- `Loop.act_acts`: all that can happen in a loop at the time it is due.
- `Schedule.nextDue_some`, `nextDue_none`: the time that is served next, if anything is due.
- `Schedule.settle_complete`: serving what is due before a time ends, and nothing is left that was. The steps that are
  allowed for suffice: each takes one from the `Loop.steps` left to a loop, of which there are no more than its `bound`.
- `Schedule.settle_forall`: what holds of every loop, and of what happens in it, stays true while the schedule is served.
-/
import Mathlib.Data.List.Induction
import Mathlib.Data.List.Perm.Basic
import RowFiles.Schedule

namespace RowFiles

variable {σ : Type}

def Event.subject : Event σ → σ
  | .started _ x _ | .finished _ x _ | .failed _ x _ => x

@[simp] theorem Event.subject_started (time : Nat) (x : σ) (run : Nat) : (Event.started time x run).subject = x := rfl

theorem Job.subject_over (j : Job σ) (now run : Nat) : ∀ e ∈ j.over now run, e.subject = j.subject := by
  rw [Job.over]
  split_ifs <;> simp [Event.subject]

/-! ## Tickers -/

namespace Ticker

variable (t : Ticker) (now limit : Nat)

@[simp] theorem tick_interval : (t.tick now).interval = t.interval := by rw [tick]

@[simp] theorem tick_runs : (t.tick now).runs = t.runs + 1 := by rw [tick]

@[simp] theorem release_interval : (t.release now).interval = t.interval := rfl

@[simp] theorem release_deadline : (t.release now).deadline = t.deadline := rfl

@[simp] theorem release_runs : (t.release now).runs = t.runs := rfl

/-- no tick is taken before it is due -/
theorem deadline_le_fires : t.deadline ≤ t.fires * nanosPerMilli := by
  rw [fires, nanosPerMilli]
  omega

/-- the first tick is not due at once -/
theorem lt_fires_start {interval : Nat} (positive : 0 < interval) : now < (start now interval).fires := by
  have late := (start now interval).deadline_le_fires
  have deadline : (start now interval).deadline = now * nanosPerMilli + interval := rfl
  rw [deadline] at late
  exact Nat.lt_of_mul_lt_mul_right (Nat.lt_of_lt_of_le (Nat.lt_add_of_pos_right positive) late)

/-- a tick that is taken at all puts the next one an interval or more behind it -/
theorem deadline_le_tick : t.deadline + t.interval ≤ (t.tick now).deadline := by
  rw [tick]
  dsimp only
  split_ifs with late <;> omega

/-- the next tick is due an interval after the last was taken, or up to the tolerance earlier -/
theorem taken_le_tick :
    now * nanosPerMilli + t.interval ≤ (t.tick now).deadline + tickTolerance * nanosPerMilli := by
  rw [tick]
  dsimp only
  split_ifs with late <;> omega

/-- how many ticks are due before a time -/
def ticksBefore : Nat :=
  if t.deadline < limit * nanosPerMilli then (limit * nanosPerMilli - 1 - t.deadline) / t.interval + 1 else 0

/-- a loop is allowed for as many ticks, at least -/
theorem ticksBefore_le : t.ticksBefore limit ≤ (limit * nanosPerMilli - t.deadline) / t.interval + 1 := by
  rw [ticksBefore]
  split_ifs
  · exact Nat.add_le_add_right (Nat.div_le_div_right (Nat.sub_le_sub_right (Nat.sub_le ..) _)) 1
  · exact Nat.zero_le _

variable {t now limit}

/-- a tick that is taken at a time is one less to take before a later one -/
theorem ticksBefore_tick (positive : 0 < t.interval) (here : t.fires = now) (early : now < limit) :
    (t.tick now).ticksBefore limit < t.ticksBefore limit := by
  have before : t.deadline < limit * nanosPerMilli := by
    rw [fires, nanosPerMilli] at here
    rw [nanosPerMilli]
    omega
  have later := t.deadline_le_tick now
  rw [ticksBefore, ticksBefore, if_pos before, tick_interval]
  split_ifs
  · refine Nat.succ_lt_succ (Nat.div_lt_of_lt_mul ?_)
    have := Nat.lt_mul_div_succ (limit * nanosPerMilli - 1 - t.deadline) positive
    rw [Nat.mul_add, Nat.mul_one] at this
    omega
  · exact Nat.succ_pos _

end Ticker

/-! ## Loops -/

namespace Loop

theorem pos_of_usable {now : Nat} {d : Duration} (able : usable now d = true) : 0 < d.nanoseconds := by
  rw [usable, Bool.and_eq_true, decide_eq_true_eq] at able
  exact able.1

/-- what can happen in a loop at a time -/
inductive Acts (l : Loop σ) (now : Nat) : Loop σ → List (Event σ) → Prop where
  | opens (fresh : l.phase = .fresh) (here : l.ticker.free = now) (able : usable now l.job.interval = true) :
    Acts l now (l.rest now) []
  | breaks (fresh : l.phase = .fresh) (here : l.ticker.free = now) (unable : usable now l.job.interval = false) :
    Acts l now { l with phase := .crashed } []
  | begins (t : Ticker) (ticked : t = l.ticker.tick now) (idle : l.phase = .idle) (here : l.ticker.fires = now) (n : Nat)
      (length : l.job.length t.runs = n + 1) :
    Acts l now { l with ticker := t, phase := .busy (now + (n + 1)) } [.started now l.job.subject t.runs]
  | passes (t : Ticker) (ticked : t = l.ticker.tick now) (idle : l.phase = .idle) (here : l.ticker.fires = now)
      (length : l.job.length t.runs = 0) (fine : l.job.crashes t.runs = false) :
    Acts l now ({ l with ticker := t.release now }.rest now)
      (.started now l.job.subject t.runs :: l.job.over now t.runs)
  | fails (t : Ticker) (ticked : t = l.ticker.tick now) (idle : l.phase = .idle) (here : l.ticker.fires = now)
      (length : l.job.length t.runs = 0) (crash : l.job.crashes t.runs = true) :
    Acts l now { l with ticker := t, phase := .crashed } [.started now l.job.subject t.runs]
  | ends (busy : l.phase = .busy now) (fine : l.job.crashes l.ticker.runs = false) :
    Acts l now ({ l with ticker := l.ticker.release now }.rest now) (l.job.over now l.ticker.runs)
  | crashes (busy : l.phase = .busy now) (crash : l.job.crashes l.ticker.runs = true) :
    Acts l now { l with phase := .crashed } []

variable {l l' : Loop σ} {now limit : Nat} {events : List (Event σ)}

theorem act_acts (due : l.due = some now) : l.Acts now (l.act now).1 (l.act now).2 := by
  rw [Loop.due] at due
  rw [act]
  cases phase : l.phase with
  | fresh =>
    rw [phase, Option.some.injEq] at due
    dsimp only
    split_ifs with able
    · exact .opens phase due able
    · exact .breaks phase due (Bool.not_eq_true _ ▸ able)
  | idle =>
    rw [phase, Option.some.injEq] at due
    dsimp only
    generalize ticked : l.ticker.tick now = t
    cases length : l.job.length t.runs with
    | succ n => exact .begins t ticked.symm phase due n length
    | zero =>
      dsimp only [finish]
      split_ifs with crash
      · exact .fails t ticked.symm phase due length crash
      · exact .passes t ticked.symm phase due length (Bool.not_eq_true _ ▸ crash)
  | busy till =>
    rw [phase, Option.some.injEq] at due
    rw [due] at phase
    dsimp only [finish]
    split_ifs with crash
    · exact .crashes phase crash
    · exact .ends phase (Bool.not_eq_true _ ▸ crash)
  | ended => simp [phase] at due
  | crashed => simp [phase] at due

/-! ### What stays the same -/

section Rest

variable (l : Loop σ) (now : Nat)

@[simp] theorem rest_number : (l.rest now).number = l.number := rfl

@[simp] theorem rest_scheduler : (l.rest now).scheduler = l.scheduler := rfl

@[simp] theorem rest_job : (l.rest now).job = l.job := rfl

@[simp] theorem rest_ticker : (l.rest now).ticker = l.ticker := rfl

@[simp] theorem rest_stopping : (l.rest now).stopping = l.stopping := rfl

@[simp] theorem rest_lastRun : (l.rest now).lastRun = l.lastRun := rfl

/-- a loop without a run ends or waits for a tick, and once it is told to stop it waits only for one that is due -/
theorem rest_phase : (l.rest now).phase = .ended ∧ l.stopping = true ∨ (l.rest now).phase = .idle ∧
    (l.stopping = true → l.ticker.runs < l.lastRun ∧ l.ticker.fires ≤ now) := by
  rw [rest]
  dsimp only
  split_ifs with stops
  · exact .inl ⟨rfl, stops.1⟩
  · exact .inr ⟨rfl, fun stopping => not_not.1 fun idle => stops ⟨stopping, idle⟩⟩

end Rest

theorem Acts.same (h : l.Acts now l' events) :
    l'.number = l.number ∧ l'.scheduler = l.scheduler ∧ l'.job = l.job ∧ l'.stopping = l.stopping := by
  cases h <;> simp

theorem Acts.subject (h : l.Acts now l' events) : ∀ e ∈ events, e.subject = l.job.subject := by
  cases h with
  | opens | breaks | crashes => nofun
  | begins | fails => simp
  | passes t => simpa using l.job.subject_over now t.runs
  | ends => exact l.job.subject_over now l.ticker.runs

/-! ### How many steps are left -/

/-- the ticker of a loop goes by the interval of its job, which is not zero once the loop has been served -/
structure Paced (l : Loop σ) : Prop where
  interval : l.ticker.interval = min l.job.interval.nanoseconds (longestWait * nanosPerMilli)
  positive : l.phase = .idle ∨ (∃ till, l.phase = .busy till) → 0 < l.job.interval.nanoseconds

theorem Paced.start (number scheduler now : Nat) (job : Job σ) : (Loop.start number scheduler now job).Paced := by
  refine ⟨rfl, fun h => ?_⟩
  rcases h with h | ⟨_, h⟩ <;> cases h

theorem Acts.paced (h : l.Acts now l' events) (paced : l.Paced) : l'.Paced := by
  have tick {t : Ticker} (ticked : t = l.ticker.tick now) :
      t.interval = min l.job.interval.nanoseconds (longestWait * nanosPerMilli) := by
    rw [ticked, Ticker.tick_interval, paced.interval]
  cases h with
  | opens _ _ able => exact ⟨paced.interval, fun _ => pos_of_usable able⟩
  | breaks => exact ⟨paced.interval, by simp⟩
  | begins t ticked idle => exact ⟨tick ticked, fun _ => paced.positive (.inl idle)⟩
  | passes t ticked idle =>
    refine ⟨?_, fun _ => paced.positive (.inl idle)⟩
    rw [rest_ticker, Ticker.release_interval]
    exact tick ticked
  | fails t ticked => exact ⟨tick ticked, by simp⟩
  | ends busy => exact ⟨paced.interval, fun _ => paced.positive (.inr ⟨_, busy⟩)⟩
  | crashes => exact ⟨paced.interval, by simp⟩

/-- what happens in a phase other than ticks: a loop is served for the first time, or its run ends -/
def pending : Phase → Nat
  | .fresh | .busy _ => 1
  | .idle | .ended | .crashed => 0

/-- how much can happen in a loop before a time: with each tick a run begins and ends -/
def steps (l : Loop σ) (limit : Nat) : Nat := 2 * l.ticker.ticksBefore limit + pending l.phase

theorem steps_le_bound (l : Loop σ) (limit : Nat) : l.steps limit ≤ l.bound limit := by
  have fewer := l.ticker.ticksBefore_le limit
  have once : pending l.phase ≤ 1 := by cases l.phase <;> simp [pending]
  rw [steps, bound]
  omega

theorem steps_rest (l : Loop σ) (now limit : Nat) : (l.rest now).steps limit = 2 * l.ticker.ticksBefore limit := by
  have waits : pending (l.rest now).phase = 0 := by
    rcases l.rest_phase now with ⟨phase, _⟩ | ⟨phase, _⟩ <;> rw [phase, pending]
  rw [steps, waits, rest_ticker, Nat.add_zero]

/-- what happens in a loop before a time takes one of the steps that are left to it -/
theorem Acts.steps_lt (h : l.Acts now l' events) (paced : l.Paced) (early : now < limit) :
    l'.steps limit < l.steps limit := by
  have tick {t : Ticker} (ticked : t = l.ticker.tick now) (idle : l.phase = .idle) (here : l.ticker.fires = now) :
      t.ticksBefore limit < l.ticker.ticksBefore limit := by
    have positive : 0 < l.ticker.interval := by
      rw [paced.interval]
      exact Nat.lt_min.2 ⟨paced.positive (.inl idle), by decide⟩
    rw [ticked]
    exact Ticker.ticksBefore_tick positive here early
  have release (t : Ticker) : (t.release now).ticksBefore limit = t.ticksBefore limit := by
    rw [Ticker.ticksBefore, Ticker.ticksBefore, Ticker.release_deadline, Ticker.release_interval]
  cases h with
  | opens fresh =>
    rw [steps_rest, steps, fresh, pending]
    omega
  | breaks fresh =>
    simp only [steps, fresh, pending]
    omega
  | begins t ticked idle here =>
    have := tick ticked idle here
    simp only [steps, idle, pending]
    omega
  | passes t ticked idle here =>
    have := tick ticked idle here
    rw [steps_rest, release, steps, idle, pending]
    omega
  | fails t ticked idle here =>
    have := tick ticked idle here
    simp only [steps, idle, pending]
    omega
  | ends busy =>
    rw [steps_rest, release, steps, busy, pending]
    omega
  | crashes busy =>
    simp only [steps, busy, pending]
    omega

end Loop

/-! ## Serving -/

namespace Schedule

variable {limit now : Nat} {loops : List (Loop σ)}

theorem nextDue_concat (ls : List (Loop σ)) (l : Loop σ) : nextDue (ls ++ [l]) limit =
    match nextDue ls limit, l.due with
    | some t, some d => some (min t d)
    | none, some d => if d < limit then some d else none
    | t, none => t :=
  List.foldl_append ..

theorem nextDue_some (next : nextDue loops limit = some now) : now < limit ∧ ∃ l ∈ loops, l.due = some now := by
  induction loops using List.reverseRecOn generalizing now with
  | nil => cases next
  | append_singleton ls l ih =>
    rw [nextDue_concat] at next
    cases before : nextDue ls limit with
    | none =>
      cases due : l.due with
      | none => simp [before, due] at next
      | some d =>
        simp only [before, due, Option.ite_none_right_eq_some, Option.some.injEq] at next
        exact ⟨by omega, l, by simp, by rw [due, next.2]⟩
    | some t =>
      obtain ⟨early, l', there, due'⟩ := ih before
      cases due : l.due with
      | none =>
        simp only [before, due, Option.some.injEq] at next
        exact ⟨by omega, l', by simp [there], by rw [due', next]⟩
      | some d =>
        simp only [before, due, Option.some.injEq] at next
        rcases Nat.le_total t d with le | le
        · exact ⟨by omega, l', by simp [there], by rw [due', ← next, Nat.min_eq_left le]⟩
        · exact ⟨by omega, l, by simp, by rw [due, ← next, Nat.min_eq_right le]⟩

theorem nextDue_none (none : nextDue loops limit = none) : ∀ l ∈ loops, ∀ d, l.due = some d → limit ≤ d := by
  induction loops using List.reverseRecOn with
  | nil => simp
  | append_singleton ls l ih =>
    rw [nextDue_concat] at none
    cases before : nextDue ls limit with
    | none =>
      intro l' there d due
      rw [List.mem_append, List.mem_singleton] at there
      rcases there with there | rfl
      · exact ih before l' there d due
      · simp only [before, due, ite_eq_right_iff, reduceCtorEq, imp_false] at none
        omega
    | some t => cases due : l.due <;> simp [before, due] at none

/-- one loop that is due acts, and all others stay as they are -/
theorem actFirst_perm (there : ∃ l ∈ loops, l.due = some now) : ∃ l rest, loops.Perm (l :: rest) ∧ l.due = some now ∧
    (actFirst now loops).1.Perm ((l.act now).1 :: rest) ∧ (actFirst now loops).2 = (l.act now).2 := by
  induction loops with
  | nil => simp at there
  | cons l ls ih =>
    by_cases due : l.due = some now
    · refine ⟨l, ls, .refl _, due, ?_, ?_⟩
      · rw [actFirst, if_pos due]
        dsimp only
        split_ifs
        · exact .refl _
        · exact List.perm_append_singleton ..
      · rw [actFirst, if_pos due]
    · have later : ∃ l' ∈ ls, l'.due = some now := by simpa [due] using there
      obtain ⟨l', rest, perm, due', acted, events⟩ := ih later
      refine ⟨l', l :: rest, (perm.cons l).trans (.swap ..), due', ?_, ?_⟩
      · rw [actFirst, if_neg due]
        exact (acted.cons l).trans (.swap ..)
      · rw [actFirst, if_neg due]
        exact events

/-- how much can happen in some loops before a time -/
def steps (limit : Nat) (loops : List (Loop σ)) : Nat := loops.foldr (fun l n => l.steps limit + n) 0

theorem steps_perm {loops' : List (Loop σ)} (perm : loops.Perm loops') : steps limit loops = steps limit loops' := by
  have comm : LeftCommutative fun (l : Loop σ) n => l.steps limit + n := ⟨fun _ _ _ => Nat.add_left_comm ..⟩
  exact perm.foldr_eq 0

/-- **What is due is served.** With a step for all that can happen in the loops, nothing is left that is due before the
time. -/
theorem settle_complete (paced : ∀ l ∈ loops, l.Paced) {fuel : Nat}
    (enough : steps limit loops < fuel) (done : List (Event σ)) :
    ∀ l ∈ (settle limit fuel loops done).1, ∀ d, l.due = some d → limit ≤ d := by
  induction fuel generalizing loops done with
  | zero => omega
  | succ fuel ih =>
    rw [settle]
    cases next : nextDue loops limit with
    | none => exact nextDue_none next
    | some now =>
      obtain ⟨early, there⟩ := nextDue_some next
      obtain ⟨l, rest, perm, due, acted, _⟩ := actFirst_perm there
      have mine := paced l (perm.mem_iff.2 List.mem_cons_self)
      have acts := Loop.act_acts due
      refine ih (fun l' there' => ?_) ?_ _
      · rcases List.mem_cons.1 (acted.mem_iff.1 there') with rfl | there'
        · exact acts.paced mine
        · exact paced l' (perm.mem_iff.2 (List.mem_cons_of_mem _ there'))
      · have fewer := acts.steps_lt mine early
        rw [steps_perm perm, steps, List.foldr_cons] at enough
        rw [steps_perm acted, steps, List.foldr_cons]
        omega

/-- **What stays true of loops** and of what happens in them, when a loop acts that is due before a time, does so while the
schedule is served -/
theorem settle_forall {P : Loop σ → Prop} {E : Event σ → Prop}
    (acts : ∀ l now, P l → l.due = some now → now < limit → P (l.act now).1 ∧ ∀ e ∈ (l.act now).2, E e) (fuel : Nat)
    {done : List (Event σ)} (here : ∀ l ∈ loops, P l) (earlier : ∀ e ∈ done, E e) :
    (∀ l ∈ (settle limit fuel loops done).1, P l) ∧ ∀ e ∈ (settle limit fuel loops done).2, E e := by
  induction fuel generalizing loops done with
  | zero => exact ⟨here, earlier⟩
  | succ fuel ih =>
    rw [settle]
    cases next : nextDue loops limit with
    | none => exact ⟨here, earlier⟩
    | some now =>
      obtain ⟨early, there⟩ := nextDue_some next
      obtain ⟨l, rest, perm, due, acted, events⟩ := actFirst_perm there
      obtain ⟨mine, told⟩ := acts l now (here l (perm.mem_iff.2 List.mem_cons_self)) due early
      refine ih (fun l' there' => ?_) fun e there' => ?_
      · rcases List.mem_cons.1 (acted.mem_iff.1 there') with rfl | there'
        · exact mine
        · exact here l' (perm.mem_iff.2 (List.mem_cons_of_mem _ there'))
      · rw [List.mem_append, List.mem_reverse, events] at there'
        exact there'.elim (told e) (earlier e)

/-- what no act changes of a loop stays the same all over the schedule -/
theorem settle_map {α : Type} {f : Loop σ → α} (same : ∀ l now, l.due = some now → f (l.act now).1 = f l) (fuel : Nat)
    (done : List (Event σ)) : ((settle limit fuel loops done).1.map f).Perm (loops.map f) := by
  induction fuel generalizing loops done with
  | zero => exact .refl _
  | succ fuel ih =>
    rw [settle]
    cases next : nextDue loops limit with
    | none => exact .refl _
    | some now =>
      obtain ⟨_, there⟩ := nextDue_some next
      obtain ⟨l, rest, perm, due, acted, _⟩ := actFirst_perm there
      refine (ih _).trans ((acted.map f).trans (.trans ?_ (perm.map f).symm))
      rw [List.map_cons, List.map_cons, same l now due]

/-- a loop in which nothing is due before the time stays as it is -/
theorem settle_spares {l : Loop σ} (late : ∀ d, l.due = some d → limit ≤ d) (fuel : Nat) {done : List (Event σ)}
    (here : l ∈ loops) : l ∈ (settle limit fuel loops done).1 := by
  induction fuel generalizing loops done with
  | zero => exact here
  | succ fuel ih =>
    rw [settle]
    cases next : nextDue loops limit with
    | none => exact here
    | some now =>
      obtain ⟨early, there⟩ := nextDue_some next
      obtain ⟨l', rest, perm, due, acted, _⟩ := actFirst_perm there
      refine ih (acted.mem_iff.2 (List.mem_cons_of_mem _ ?_))
      rcases List.mem_cons.1 (perm.mem_iff.1 here) with rfl | here
      · have := late now due
        omega
      · exact here

variable {s : Schedule σ}

theorem serve_complete (paced : ∀ l ∈ s.loops, l.Paced) (limit : Nat) :
    ∀ l ∈ (s.serve limit).1.loops, ∀ d, l.due = some d → limit ≤ d := by
  refine settle_complete paced ?_ []
  induction s.loops with
  | nil => exact Nat.zero_lt_one
  | cons l ls ih =>
    have := l.steps_le_bound limit
    rw [steps] at ih
    rw [steps, List.foldr_cons, List.foldr_cons]
    omega

theorem serve_forall {P : Loop σ → Prop} {E : Event σ → Prop}
    (acts : ∀ l now, P l → l.due = some now → now < limit → P (l.act now).1 ∧ ∀ e ∈ (l.act now).2, E e)
    (here : ∀ l ∈ s.loops, P l) :
    (∀ l ∈ (s.serve limit).1.loops, P l) ∧ ∀ e ∈ (s.serve limit).2, E e := by
  have settled := settle_forall acts (s.loops.foldr (fun l n => l.bound limit + n) 1) here (List.forall_mem_nil E)
  exact ⟨settled.1, fun e there => settled.2 e (List.mem_reverse.1 there)⟩

end Schedule

end RowFiles
