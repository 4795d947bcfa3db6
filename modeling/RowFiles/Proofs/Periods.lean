/-
When the runs of a job start.

- `Job.tickerAfter`, `Job.starts`: a run starts when its tick is due, or when the run before it is over if that is later;
  a tick that is taken too late sets the next one back.
- `Job.first_start`, `Job.over_le_starts`, `Job.starts_apart`: how far apart runs start. Each start is bounded by the
  deadline after it, and deadlines never come closer than the period.
- `Loop.Follows`, `Loop.Acts.follows`: how far a loop that does not crash has come, from one act to the next.
- `Schedule.runs_keep_apart`: what is told of a registered job, whatever else is registered and happens.
- `Schedule.runs_come_early`: an interval longer than `longestWait`, of which only so much is kept between runs.
-/
import RowFiles.Proofs.Registrations

namespace RowFiles

variable {σ : Type}

/-! ## Start times -/

namespace Job

variable (j : Job σ) (registered : Nat)

/-- the least time from one tick to the next, in nanoseconds -/
def period : Nat := min j.interval.nanoseconds (longestWait * nanosPerMilli)

/-- the ticker of a job when some runs are over -/
def tickerAfter : Nat → Ticker
  | 0 => .start registered j.interval.nanoseconds
  | n + 1 =>
    let t := tickerAfter n
    (t.tick t.fires).release (t.fires + j.length (n + 1))

/-- when a run starts, of which so many come before -/
def starts (n : Nat) : Nat := (j.tickerAfter registered n).fires

@[simp] theorem tickerAfter_runs (n : Nat) : (j.tickerAfter registered n).runs = n := by
  induction n with
  | zero => rfl
  | succ n ih => rw [tickerAfter, Ticker.release_runs, Ticker.tick_runs, ih]

@[simp] theorem tickerAfter_interval (n : Nat) : (j.tickerAfter registered n).interval = j.period := by
  induction n with
  | zero => rfl
  | succ n ih => rw [tickerAfter, Ticker.release_interval, Ticker.tick_interval, ih]

theorem registered_le_starts : registered ≤ j.starts registered 0 := Nat.le_max_left ..

/-- the first run waits for the whole interval -/
theorem first_start : registered * nanosPerMilli + j.interval.nanoseconds ≤ j.starts registered 0 * nanosPerMilli :=
  (j.tickerAfter registered 0).deadline_le_fires

/-- a run does not start before the one before it is over -/
theorem over_le_starts (n : Nat) : j.starts registered n + j.length (n + 1) ≤ j.starts registered (n + 1) :=
  Nat.le_max_left ..

theorem starts_mono {m n : Nat} (le : m ≤ n) : j.starts registered m ≤ j.starts registered n := by
  induction le with
  | refl => exact Nat.le_refl _
  | @step n _ ih => exact Nat.le_trans ih (Nat.le_trans (Nat.le_add_right ..) (j.over_le_starts registered n))

/-- deadlines are a period apart, and further where a tick was late -/
theorem deadlines_apart (n m : Nat) :
    (j.tickerAfter registered n).deadline + m * j.period ≤ (j.tickerAfter registered (n + m)).deadline := by
  induction m with
  | zero =>
    rw [Nat.zero_mul]
    exact Nat.le_refl _
  | succ m ih =>
    have next := (j.tickerAfter registered (n + m)).deadline_le_tick (j.starts registered (n + m))
    rw [tickerAfter_interval] at next
    calc (j.tickerAfter registered n).deadline + (m + 1) * j.period
        = (j.tickerAfter registered n).deadline + m * j.period + j.period := by rw [Nat.succ_mul, Nat.add_assoc]
      _ ≤ (j.tickerAfter registered (n + m)).deadline + j.period := Nat.add_le_add_right ih _
      _ ≤ (j.tickerAfter registered (n + (m + 1))).deadline := next

/-- **Runs never burst.** Of any runs one after another, the last starts as many periods after the first as there are
from the one to the other, or earlier by the tolerance of a single tick at most. -/
theorem starts_apart (n m : Nat) : j.starts registered n * nanosPerMilli + m * j.period ≤
    j.starts registered (n + m) * nanosPerMilli + tickTolerance * nanosPerMilli := by
  cases m with
  | zero =>
    rw [Nat.zero_mul, Nat.add_zero, Nat.add_zero]
    exact Nat.le_add_right ..
  | succ m =>
    have taken := (j.tickerAfter registered n).taken_le_tick (j.starts registered n)
    rw [tickerAfter_interval] at taken
    have between := j.deadlines_apart registered (n + 1) m
    have due := (j.tickerAfter registered (n + 1 + m)).deadline_le_fires
    rw [Nat.add_right_comm] at between due
    calc j.starts registered n * nanosPerMilli + (m + 1) * j.period
        = j.starts registered n * nanosPerMilli + j.period + m * j.period := by rw [Nat.succ_mul]; omega
      _ ≤ (j.tickerAfter registered (n + 1)).deadline + tickTolerance * nanosPerMilli + m * j.period :=
        Nat.add_le_add_right taken _
      _ = (j.tickerAfter registered (n + 1)).deadline + m * j.period + tickTolerance * nanosPerMilli :=
        Nat.add_right_comm ..
      _ ≤ j.starts registered (n + (m + 1)) * nanosPerMilli + tickTolerance * nanosPerMilli :=
        Nat.add_le_add_right (Nat.le_trans between due) _

/-- the start of a run, of which so many come before -/
def opening (n : Nat) : Event σ := .started (j.starts registered n) j.subject (n + 1)

/-- what is told of the first runs, each by itself and over before the next -/
def account (n : Nat) : List (Event σ) :=
  (List.range n).flatMap fun i =>
    j.opening registered i :: j.over (j.starts registered i + j.length (i + 1)) (i + 1)

theorem account_succ (n : Nat) : j.account registered (n + 1) =
    j.account registered n ++ j.opening registered n :: j.over (j.starts registered n + j.length (n + 1)) (n + 1) := by
  rw [account, List.range_succ, List.flatMap_append, List.flatMap_singleton, account]

end Job

/-! ## Loops -/

namespace Loop

/-- how far a loop has come that was registered at a time and does not crash in a run, and what was told of it -/
inductive Follows (l : Loop σ) (registered : Nat) : List (Event σ) → Prop where
  | opening (fresh : l.phase = .fresh) (ticker : l.ticker = l.job.tickerAfter registered 0) : Follows l registered []
  | waiting (n : Nat) (idle : l.phase = .idle) (ticker : l.ticker = l.job.tickerAfter registered n) :
    Follows l registered (l.job.account registered n)
  | running (n : Nat) (busy : l.phase = .busy (l.job.starts registered n + l.job.length (n + 1)))
      (ticker : l.ticker = (l.job.tickerAfter registered n).tick (l.job.starts registered n)) :
    Follows l registered (l.job.account registered n ++ [l.job.opening registered n])
  | unable (crashed : l.phase = .crashed) (unable : usable registered l.job.interval = false) : Follows l registered []

variable {l l' : Loop σ} {now registered : Nat} {told events : List (Event σ)}

/-- a loop that is not to stop waits for the next tick -/
theorem follows_rest {t : Ticker} {n : Nat} (up : l.stopping = false) (ticker : t = l.job.tickerAfter registered n) :
    (rest { l with ticker := t } now).Follows registered (l.job.account registered n) :=
  .waiting n (if_neg (by simp [up])) ticker

section Follows

variable (follows : l.Follows registered told)
include follows

theorem Follows.of_fresh (fresh : l.phase = .fresh) : l.ticker = l.job.tickerAfter registered 0 ∧ told = [] := by
  cases follows with
  | opening _ ticker => exact ⟨ticker, rfl⟩
  | waiting _ other | running _ other | unable other => simp [fresh] at other

theorem Follows.of_idle (idle : l.phase = .idle) :
    ∃ n, l.ticker = l.job.tickerAfter registered n ∧ told = l.job.account registered n := by
  cases follows with
  | waiting n _ ticker => exact ⟨n, ticker, rfl⟩
  | opening other | running _ other | unable other => simp [idle] at other

theorem Follows.of_busy {till : Nat} (busy : l.phase = .busy till) :
    ∃ n, till = l.job.starts registered n + l.job.length (n + 1) ∧
      l.ticker = (l.job.tickerAfter registered n).tick (l.job.starts registered n) ∧
      told = l.job.account registered n ++ [l.job.opening registered n] := by
  cases follows with
  | running n ends ticker => exact ⟨n, by simpa [busy] using ends, ticker, rfl⟩
  | opening other | waiting _ other | unable other => simp [busy] at other

end Follows

/-- **How a loop goes on.** Its runs start as told beforehand and end after their time, and one that failed is like any
other. -/
theorem Acts.follows (h : l.Acts now l' events) (follows : l.Follows registered told) (fine : l.job.crashesIn = none)
    (up : l.stopping = false) : l'.Follows registered (told ++ events) := by
  have safe (run : Nat) : l.job.crashes run = false := by rw [Job.crashes, fine]; rfl
  have taken {n : Nat} (ticker : l.ticker = l.job.tickerAfter registered n) (here : l.ticker.fires = now) :
      now = l.job.starts registered n ∧ (l.ticker.tick now).runs = n + 1 := by
    rw [Ticker.tick_runs, ← here, ticker, Job.tickerAfter_runs]
    exact ⟨rfl, rfl⟩
  cases h with
  | opens fresh =>
    obtain ⟨ticker, rfl⟩ := follows.of_fresh fresh
    exact follows_rest (n := 0) up ticker
  | breaks fresh here unable =>
    obtain ⟨ticker, rfl⟩ := follows.of_fresh fresh
    rw [ticker] at here
    have same : registered = now := here
    exact .unable rfl (same ▸ unable)
  | begins t ticked idle here m length =>
    obtain ⟨n, ticker, rfl⟩ := follows.of_idle idle
    obtain ⟨start, runs⟩ := taken ticker here
    rw [← ticked] at runs
    rw [runs] at length ⊢
    rw [start, ← length]
    exact .running n rfl (by rw [ticked, ticker, start])
  | passes t ticked idle here length =>
    obtain ⟨n, ticker, rfl⟩ := follows.of_idle idle
    obtain ⟨start, runs⟩ := taken ticker here
    rw [← ticked] at runs
    rw [runs] at length ⊢
    have whole := l.job.account_succ registered n
    rw [Job.opening, ← start, length] at whole
    refine whole ▸ follows_rest up ?_
    rw [Job.tickerAfter, length, ticked, ticker, start]
    rfl
  | fails t ticked idle here length crash => simp [safe] at crash
  | ends busy =>
    obtain ⟨n, till, ticker, rfl⟩ := follows.of_busy busy
    have runs : l.ticker.runs = n + 1 := by rw [ticker, Ticker.tick_runs, Job.tickerAfter_runs]
    rw [runs, till, List.append_assoc, List.singleton_append, ← Job.account_succ]
    refine follows_rest up ?_
    rw [ticker]
    rfl
  | crashes busy crash => simp [safe] at crash

end Loop

namespace Schedule

/-! ## Nothing is overdue -/

/-- nothing is left that was due before the present time -/
def Prompt (s : Schedule σ) : Prop := ∀ l ∈ s.loops, ∀ d, l.due = some d → s.now ≤ d

variable {s : Schedule σ}

theorem Prompt.stop (prompt : s.Prompt) (k : Nat) : (s.stop k).Prompt := by
  intro l there d due
  obtain ⟨l₀, before, rfl⟩ := mem_stop there
  split_ifs at due
  · obtain ⟨_, _, _, ticker, _⟩ := l₀.stop_same s.now
    rcases l₀.stop_phase s.now with ⟨same, _⟩ | ended
    · rw [Loop.due, same, ticker] at due
      exact prompt l₀ before d due
    · simp [Loop.due, ended] at due
  · exact prompt l₀ before d due

theorem Fit.act_prompt (fit : s.Fit) (prompt : s.Prompt) (step : Step σ) : (Schedule.act step s).1.Prompt := by
  have paced {s : Schedule σ} (fit : s.Fit) : ∀ l ∈ s.loops, l.Paced := fun l there => (fit.sound l there).paced
  cases step with
  | register k job =>
    intro l there d due
    rcases List.mem_append.1 there with there | there
    · exact prompt l there d due
    · rw [List.mem_singleton.1 there, Loop.due] at due
      exact Nat.le_of_eq (Option.some.inj due)
  | sleep millis => exact serve_complete (paced fit) _
  | shutdown k =>
    cases wait : mustWait (s.own k) with
    | false =>
      rw [Schedule.act, shutdown_at_once wait]
      exact prompt.stop k
    | true =>
      rw [Schedule.act, shutdown_waits wait]
      exact fun l there d due => Nat.le_of_succ_le (serve_complete (paced (fit.stop k)) _ l there d due)

theorem Fit.play_prompt (fit : s.Fit) (prompt : s.Prompt) (steps : List (Step σ)) : (Schedule.play steps s).1.Prompt := by
  induction steps generalizing s with
  | nil => exact prompt
  | cons step steps ih => exact ih (fit.act step) (fit.act_prompt prompt step)

/-! ## What is told of a job -/

/-- a loop that nothing hinders has started every run whose time has come -/
theorem started_of_follows {l : Loop σ} {registered now : Nat} {told : List (Event σ)}
    (follows : l.Follows registered told) (prompt : ∀ d, l.due = some d → now ≤ d) :
    ∃ n begun, (begun = n ∧ told = l.job.account registered n ∨
        begun = n + 1 ∧ told = l.job.account registered n ++ [l.job.opening registered n]) ∧
      (Loop.usable registered l.job.interval = true → ∀ i, l.job.starts registered i < now → i < begun) := by
  cases follows with
  | opening fresh ticker =>
    refine ⟨0, 0, .inl ⟨rfl, rfl⟩, fun _ i early => ?_⟩
    have late : now ≤ registered := prompt registered (by rw [Loop.due, fresh, ticker]; rfl)
    have first := l.job.starts_mono registered (Nat.zero_le i)
    have := l.job.registered_le_starts registered
    omega
  | waiting n idle ticker =>
    refine ⟨n, n, .inl ⟨rfl, rfl⟩, fun _ i early => ?_⟩
    have late : now ≤ l.job.starts registered n := prompt _ (by rw [Loop.due, idle, ticker]; rfl)
    by_contra there
    have := l.job.starts_mono registered (Nat.le_of_not_lt there)
    omega
  | running n busy =>
    refine ⟨n, n + 1, .inr ⟨rfl, rfl⟩, fun _ i early => ?_⟩
    have late := prompt _ (by rw [Loop.due, busy])
    have next := l.job.over_le_starts registered n
    by_contra there
    have := l.job.starts_mono registered (Nat.le_of_not_lt there)
    omega
  | unable _ unable => exact ⟨0, 0, .inl ⟨rfl, rfl⟩, by simp [unable]⟩

/-- the loop of a job that is registered, does not crash and is not shut down later follows its runs from then on -/
theorem follows_registered {t : Schedule (Nat × σ)} {told : List (Event (Nat × σ))} (before : Traced (fun _ _ => True) t told)
    (later : List (Step σ)) (k : Nat) (job : Job σ) (fine : job.crashesIn = none) (up : .shutdown k ∉ later) :
    let u := play (Step.numbered t.loops.length (.register k job :: later)) t
    ∃ l ∈ (u.1.map Prod.snd).loops, l.job = job ∧ l.Follows t.now (toldOf t.loops.length (told ++ u.2)) := by
  intro u
  -- of the loop with this number, and of no other, it is claimed that it follows its runs
  let Kept (l : Loop σ) (told : List (Event σ)) : Prop := l.number = t.loops.length →
    l.scheduler = k ∧ l.job = job ∧ l.stopping = false ∧ l.Follows t.now told
  have registered : Traced Kept (t.register k (job.map fun x => (t.loops.length, x))) told :=
    before.register k job (fun _ _ lt _ same => absurd same (Nat.ne_of_lt lt)) fun _ => ⟨rfl, rfl, rfl, .opening rfl rfl⟩
  have grown : (t.register k (job.map fun x => (t.loops.length, x))).loops.length = t.loops.length + 1 :=
    length_act (.register k _) t
  have played := registered.play later
    (fun l told now kept due same => by
      have acts := Loop.act_acts due
      obtain ⟨number, scheduler, same_job, stopping⟩ := acts.same
      obtain ⟨own, mine, up, follows⟩ := kept (number ▸ same)
      rw [scheduler, same_job, stopping]
      exact ⟨own, mine, up, acts.follows follows (mine ▸ fine) up⟩)
    (fun n _ _ _ le _ same => by
      have number : n = t.loops.length := same
      omega)
    (fun l told now there kept same => by
      rw [(l.stop_same now).1] at same
      exact absurd ((kept same).1 ▸ there) up)
  rw [grown] at played
  have whole : u = play (Step.numbered (t.loops.length + 1) later) (t.register k (job.map fun x => (t.loops.length, x))) :=
    rfl
  rw [← whole] at played
  have there : t.loops.length < u.1.loops.length := by
    have := length_le_play (Step.numbered (t.loops.length + 1) later) (t.register k (job.map fun x => (t.loops.length, x)))
    rw [← whole] at this
    omega
  obtain ⟨l, there, number⟩ := List.mem_map.1 (played.fit.numbers.mem_iff.2 (List.mem_range.2 there))
  obtain ⟨_, mine, _, follows⟩ := played.holds l there number
  exact ⟨l.map Prod.snd, List.mem_map_of_mem there, mine, number ▸ follows⟩

/-- **Periodic runs.** A job that is registered, does not crash and is not shut down, whatever is registered besides and
happens before and after: its runs are told one by one with the run ids from 1 on, each over before the next begins, at
start times that depend on its own runs only. The first starts an interval after the registration or later. Runs that
follow one another start as many periods apart, less 5 ms at most. If the interval can be waited for at all, every run
has started whose time has come, no matter which of those before it failed. -/
theorem runs_keep_apart (earlier later : List (Step σ)) (k : Nat) (job : Job σ) (fine : job.crashesIn = none)
    (up : .shutdown k ∉ later) :
    let registered := (play earlier {}).1.now
    let number := (play earlier {}).1.loops.length
    let steps := earlier ++ .register k job :: later
    let starts := job.starts registered
    let events := (play (Step.numbered 0 steps) {}).2
    (play steps {}).2 = events.map (Event.map Prod.snd) ∧
      (∃ n begun, (begun = n ∧ toldOf number events = job.account registered n ∨
          begun = n + 1 ∧ toldOf number events = job.account registered n ++ [job.opening registered n]) ∧
        (Loop.usable registered job.interval = true → ∀ i, starts i < (play steps {}).1.now → i < begun)) ∧
      registered * nanosPerMilli + job.interval.nanoseconds ≤ starts 0 * nanosPerMilli ∧
      (∀ i, starts i + job.length (i + 1) ≤ starts (i + 1)) ∧
      ∀ i n, starts i * nanosPerMilli + n * min job.interval.nanoseconds (longestWait * nanosPerMilli) ≤
        starts (i + n) * nanosPerMilli + tickTolerance * nanosPerMilli := by
  intro registered number steps starts events
  refine ⟨congrArg Prod.snd (play_numbered steps), ?_, job.first_start registered, job.over_le_starts registered,
    job.starts_apart registered⟩
  have before : Traced (fun _ _ => True) (play (Step.numbered 0 earlier) {}).1 (play (Step.numbered 0 earlier) {}).2 :=
    Traced.new.play _ (fun _ _ _ _ _ => trivial) (fun _ _ _ _ _ _ => trivial) fun _ _ _ _ _ => trivial
  have joined := play_numbered_append (s := {}) (n := 0) rfl earlier (.register k job :: later)
  have same_time : registered = (play (Step.numbered 0 earlier) {}).1.now := by
    change (play earlier {}).1.now = _
    rw [play_numbered]
    rfl
  have same_number : number = (play (Step.numbered 0 earlier) {}).1.loops.length := by
    change (play earlier {}).1.loops.length = _
    rw [play_numbered, Schedule.map, List.length_map]
  have all_told : events = _ ++ _ := congrArg Prod.snd joined
  obtain ⟨l, there, rfl, follows⟩ := follows_registered before later k job fine up
  rw [← all_told, ← same_time, ← same_number] at follows
  have prompt : (play steps {}).1.Prompt := Fit.new.play_prompt (fun _ nowhere => absurd nowhere List.not_mem_nil) steps
  refine started_of_follows follows (prompt l ?_)
  rw [play_numbered, joined]
  exact there

/-- two jobs work on the same, of which one crashes; the runs of the other are late by 3 and by 10 ms, and the first fails -/
theorem runs_keep_apart_late :
    let job : Job Nat :=
      { subject := 7, interval := .ofMillis 10, takes := .each [13, 17], fails := fun run => run = 1 }
    let earlier : List (Step Nat) := [.register 1 { subject := 7, interval := .ofMillis 10, crashesIn := some 1 }, .sleep 3]
    let later : List (Step Nat) := [.sleep 20, .shutdown 1, .sleep 35]
    let steps := earlier ++ .register 0 job :: later
    job.crashesIn = none ∧ .shutdown 0 ∉ later ∧
      (play steps {}).2 = [.started 10 7 1, .started 13 7 1, .finished 26 7 1, .failed 26 7 1, .started 26 7 2,
        .finished 43 7 2, .started 43 7 3, .finished 43 7 3, .started 53 7 4, .finished 53 7 4] ∧
      toldOf 1 (play (Step.numbered 0 steps) {}).2 = job.account 3 4 ∧
      job.starts 3 0 * nanosPerMilli + 3 * min job.interval.nanoseconds (longestWait * nanosPerMilli) ≤
        job.starts 3 3 * nanosPerMilli + tickTolerance * nanosPerMilli := by
  intro job earlier later steps
  have fine : job.crashesIn = none := rfl
  have up : .shutdown 0 ∉ later := by simp [later]
  exact ⟨fine, up, by decide +kernel, by decide +kernel, (runs_keep_apart earlier later 0 job fine up).2.2.2.2 0 3⟩

/-- the second run comes 30 years of 365 days after the first, whatever the interval -/
theorem runs_come_early :
    let job : Job Nat := { subject := 1, interval := .ofMillis 3000000000000 }
    let steps : List (Step Nat) := [.register 0 job, .sleep 940000000000, .sleep 940000000000, .sleep 940000000000,
      .sleep 181000000000, .sleep 940000000000, .sleep 7000000000]
    (play steps {}).2 = [.started 3000000000000 1 1, .finished 3000000000000 1 1, .started 3946080000000 1 2,
        .finished 3946080000000 1 2] ∧
      ¬ 3000000000000 * nanosPerMilli + 1 * job.interval.nanoseconds ≤
        3946080000000 * nanosPerMilli + tickTolerance * nanosPerMilli := by
  decide +kernel

end Schedule

end RowFiles
