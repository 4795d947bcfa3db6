/-
What a shutdown leaves running.

- `Loop.overBy_last`: a loop that is told to stop is over, one way or the other, when `Loop.last` says.
- `Schedule.Fit`: what holds of the loops of every schedule that was reached by steps.
- `Schedule.stays_still`: a loop that is still, of which no run is under way or to come, stays so, whatever follows.
- `Schedule.shutdown_leaves_nothing`: after a shutdown all loops of the scheduler are still for good, those apart that it
  lets go: they were in a run, or took one more before they stopped, and had been registered after one that crashed.
- `Schedule.shutdown_leaves_run`: a run that is under way, and finished, after the shutdown has returned.
-/
import Mathlib.Data.List.Nodup
import RowFiles.Proofs.Schedules

namespace RowFiles

variable {σ : Type}

/-! ## Loops -/

namespace Loop

/-- no run of the loop is under way or to come -/
def Still (l : Loop σ) : Prop :=
  l.phase = .ended ∨ l.phase = .crashed ∨
    l.phase = .fresh ∧ l.stopping = true ∧ l.ticker = .start l.ticker.free l.job.interval.nanoseconds

/-- a run of the loop is under way -/
def InRun (l : Loop σ) : Prop := ∃ till, l.phase = .busy till

/-- a run is under way, or a tick is due that the loop takes before it stops -/
def Engaged (l : Loop σ) (now : Nat) : Prop :=
  l.InRun ∨ l.phase = .idle ∧ 0 < l.job.overtime ∧ l.ticker.fires ≤ now

/-- told to stop, the loop is over with a crash: it has crashed, its first wait cannot be set up, the run under way crashes,
or one does that it takes before it stops -/
def Doomed (l : Loop σ) (now : Nat) : Prop := (l.last now now).2.phase = .crashed

instance (l : Loop σ) : Decidable l.InRun :=
  match phase : l.phase with
  | .busy till => isTrue ⟨till, phase⟩
  | .fresh | .idle | .ended | .crashed => isFalse fun ⟨till, busy⟩ => by simp [phase] at busy

instance (l : Loop σ) (now : Nat) : Decidable (l.Engaged now) := inferInstanceAs (Decidable (_ ∨ _ ∧ _))

instance (l : Loop σ) (now : Nat) : Decidable (l.Doomed now) := inferInstanceAs (Decidable (_ = _))

variable {l l' : Loop σ} {now : Nat} {events : List (Event σ)}

theorem Still.not_inRun (h : l.Still) : ¬ l.InRun := by
  rintro ⟨till, busy⟩
  rw [Still, busy] at h
  simp at h

/-- a loop that is told to stop before it was ever served ends when it is: its first tick is not due then -/
theorem Still.acts (h : l.Acts now l' events) (still : l.Still) :
    l'.Still ∧ events = [] ∧ l'.ticker.runs = l.ticker.runs := by
  cases h with
  | opens fresh here able =>
    rw [Still, fresh] at still
    obtain ⟨stopping, start⟩ : l.stopping = true ∧ l.ticker = .start l.ticker.free l.job.interval.nanoseconds := by
      simpa using still
    refine ⟨?_, rfl, rfl⟩
    rcases l.rest_phase now with ⟨ended, _⟩ | ⟨_, due⟩
    · exact .inl ended
    · have late := Ticker.lt_fires_start l.ticker.free (pos_of_usable able)
      rw [← start, here] at late
      exact absurd (due stopping).2 (Nat.not_le_of_lt late)
  | breaks => exact ⟨.inr (.inl rfl), rfl, rfl⟩
  | begins _ _ idle | passes _ _ idle | fails _ _ idle => simp [Still, idle] at still
  | ends busy | crashes busy => simp [Still, busy] at still

theorem Acts.not_fresh (h : l.Acts now l' events) : l'.phase ≠ .fresh := by
  have rest (l : Loop σ) : (l.rest now).phase ≠ .fresh := by
    rcases l.rest_phase now with ⟨phase, _⟩ | ⟨phase, _⟩ <;> simp [phase]
  cases h <;> first | exact rest _ | simp

/-- a loop ends only if it is told to stop -/
theorem Acts.stopping (h : l.Acts now l' events) (ended : l'.phase = .ended) : l'.stopping = true := by
  have rest {l : Loop σ} (ended : (l.rest now).phase = .ended) : l.stopping = true := by
    rcases l.rest_phase now with ⟨_, stopping⟩ | ⟨idle, _⟩
    · exact stopping
    · simp [idle] at ended
  cases h with
  | opens | passes | ends => exact rest ended
  | breaks | begins | fails | crashes => simp at ended

/-! ### Loops that are told to stop -/

section Stop

variable (l now)

theorem stop_idle (idle : l.phase = .idle) :
    l.stop now = { l with stopping := true, lastRun := l.ticker.runs + l.job.overtime }.rest now := by
  simp [stop, idle]

theorem stop_other (other : l.phase ≠ .idle) :
    l.stop now = { l with stopping := true, lastRun := l.ticker.runs + l.job.overtime } := by
  simp [stop, other]

theorem stop_same : (l.stop now).number = l.number ∧ (l.stop now).scheduler = l.scheduler ∧ (l.stop now).job = l.job ∧
    (l.stop now).ticker = l.ticker ∧ (l.stop now).stopping = true ∧
    (l.stop now).lastRun = l.ticker.runs + l.job.overtime := by
  by_cases idle : l.phase = .idle
  · simp [l.stop_idle now idle]
  · simp [l.stop_other now idle]

/-- only an idle loop ends at once when it is told to stop, unless a tick is due that it takes first -/
theorem stop_phase : (l.stop now).phase = l.phase ∧ (l.phase = .idle → 0 < l.job.overtime ∧ l.ticker.fires ≤ now) ∨
    (l.stop now).phase = .ended := by
  by_cases idle : l.phase = .idle
  · rw [l.stop_idle now idle]
    rcases rest_phase { l with stopping := true, lastRun := l.ticker.runs + l.job.overtime } now with
      ⟨ended, _⟩ | ⟨waits, due⟩
    · exact .inr ended
    · obtain ⟨more, here⟩ := due rfl
      exact .inl ⟨waits.trans idle.symm, fun _ => ⟨Nat.lt_add_right_iff_pos.1 more, here⟩⟩
  · rw [l.stop_other now idle]
    exact .inl ⟨rfl, fun same => absurd same idle⟩

end Stop

/-- what holds at a time of a loop in every schedule -/
structure Sound (l : Loop σ) (now : Nat) : Prop where
  paced : l.Paced
  /-- if it has not been served, it has been registered just now -/
  fresh : l.phase = .fresh → l.ticker = .start now l.job.interval.nanoseconds
  ended : l.phase = .ended → l.stopping = true

theorem Sound.start (number scheduler now : Nat) (job : Job σ) : (Loop.start number scheduler now job).Sound now :=
  ⟨.start .., fun _ => rfl, nofun⟩

theorem Sound.stop (h : l.Sound now) : (l.stop now).Sound now := by
  obtain ⟨_, _, job, ticker, stopping, _⟩ := l.stop_same now
  rcases l.stop_phase now with ⟨same, _⟩ | ended
  · refine ⟨⟨?_, ?_⟩, ?_, fun _ => stopping⟩
    · rw [ticker, job]
      exact h.paced.interval
    · rw [same, job]
      exact h.paced.positive
    · rw [same, ticker, job]
      exact h.fresh
  · refine ⟨⟨?_, by simp [ended]⟩, by simp [ended], fun _ => stopping⟩
    rw [ticker, job]
    exact h.paced.interval

/-- a loop that has been served is sound at any time -/
theorem Sound.acts (h : l.Acts now l' events) {earlier later : Nat} (sound : l.Sound earlier) : l'.Sound later :=
  ⟨h.paced sound.paced, fun fresh => absurd fresh h.not_fresh, h.stopping⟩

theorem Still.stop (h : l.Still) (now : Nat) : (l.stop now).Still := by
  obtain ⟨_, _, job, ticker, stopping, _⟩ := l.stop_same now
  rcases l.stop_phase now with ⟨same, _⟩ | ended
  · rw [Still, same, job, ticker, stopping]
    exact h.imp id (Or.imp id fun fresh => ⟨fresh.1, rfl, fresh.2.2⟩)
  · exact .inl ended

/-- a loop that is told to stop is still, unless it is engaged -/
theorem Sound.stop_still_or (sound : l.Sound now) : (l.stop now).Still ∨ l.Engaged now := by
  obtain ⟨_, _, job, ticker, stopping, _⟩ := l.stop_same now
  rcases l.stop_phase now with ⟨same, tick⟩ | ended
  · rw [Still, same, job, ticker]
    cases phase : l.phase with
    | fresh =>
      have start := sound.fresh phase
      exact .inl (.inr (.inr ⟨rfl, stopping, by rw [start]; rfl⟩))
    | idle => exact .inr (.inr ⟨phase, tick phase⟩)
    | busy till => exact .inr (.inl ⟨till, phase⟩)
    | ended => exact .inl (.inl rfl)
    | crashed => exact .inl (.inr (.inl rfl))
  · exact .inl (.inl ended)

/-! ### When a loop is over -/

/-- left to itself, the loop is over at a time -/
inductive OverBy (limit : Nat) : Loop σ → Prop where
  | quiet {l : Loop σ} (quiet : l.due = none) : OverBy limit l
  | acts {l : Loop σ} {now : Nat} (due : l.due = some now) (le : now ≤ limit) (after : OverBy limit (l.act now).1) :
    OverBy limit l

theorem OverBy.act {limit : Nat} (h : l.OverBy limit) (due : l.due = some now) :
    now ≤ limit ∧ (l.act now).1.OverBy limit := by
  cases h with
  | quiet quiet => simp [due] at quiet
  | acts due' le after =>
    obtain rfl : _ = now := Option.some.inj (due'.symm.trans due)
    exact ⟨le, after⟩

theorem OverBy.mono {limit limit' : Nat} (h : l.OverBy limit) (le : limit ≤ limit') : l.OverBy limit' := by
  induction h with
  | quiet quiet => exact .quiet quiet
  | acts due earlier _ ih => exact .acts due (Nat.le_trans earlier le) ih

theorem still_of_due (quiet : l.due = none) : l.Still := by
  rw [due] at quiet
  cases phase : l.phase with
  | fresh | idle | busy => simp [phase] at quiet
  | ended => exact .inl phase
  | crashed => exact .inr (.inl phase)

/-- a loop that is to stop waits for a tick only if it takes it first -/
structure Parting (l : Loop σ) : Prop where
  stopping : l.stopping = true
  idle : l.phase = .idle → l.ticker.runs < l.lastRun

theorem parting_rest (stopping : l.stopping = true) : (l.rest now).Parting := by
  refine ⟨stopping, fun idle => ?_⟩
  rcases l.rest_phase now with ⟨ended, _⟩ | ⟨_, due⟩
  · simp [ended] at idle
  · exact (due stopping).1

theorem parting_stop (l : Loop σ) (now : Nat) : (l.stop now).Parting := by
  by_cases idle : l.phase = .idle
  · rw [l.stop_idle now idle]
    exact parting_rest rfl
  · rw [l.stop_other now idle]
    exact ⟨rfl, fun same => absurd same idle⟩

theorem Parting.acts (h : l.Acts now l' events) (parting : l.Parting) : l'.Parting := by
  cases h with
  | opens | passes | ends => exact parting_rest parting.stopping
  | breaks | begins | fails | crashes => exact ⟨parting.stopping, by simp⟩

/-- how much can still happen in a loop that is to stop -/
def stepsLeft (l : Loop σ) : Nat := 2 * (l.lastRun - l.ticker.runs) + pending l.phase

theorem stepsLeft_rest (l : Loop σ) (now : Nat) : (l.rest now).stepsLeft = 2 * (l.lastRun - l.ticker.runs) := by
  have waits : pending (l.rest now).phase = 0 := by
    rcases l.rest_phase now with ⟨phase, _⟩ | ⟨phase, _⟩ <;> rw [phase, pending]
  rw [stepsLeft, waits, rest_ticker, rest_lastRun, Nat.add_zero]

theorem stepsLeft_stop (l : Loop σ) (now : Nat) : (l.stop now).stepsLeft ≤ 2 * l.job.overtime + 1 := by
  obtain ⟨_, _, _, ticker, _, lastRun⟩ := l.stop_same now
  have once : pending (l.stop now).phase ≤ 1 := by cases (l.stop now).phase <;> simp [pending]
  rw [stepsLeft, ticker, lastRun]
  omega

/-- what happens in a loop that is to stop takes one of the steps that are left to it -/
theorem Acts.stepsLeft_lt (h : l.Acts now l' events) (parting : l.Parting) : l'.stepsLeft < l.stepsLeft := by
  cases h with
  | opens fresh =>
    rw [stepsLeft_rest, stepsLeft, fresh, pending]
    omega
  | breaks fresh =>
    simp only [stepsLeft, fresh, pending]
    omega
  | begins t ticked idle =>
    have more := parting.idle idle
    simp only [stepsLeft, ticked, Ticker.tick_runs, idle, pending]
    omega
  | passes t ticked idle =>
    have more := parting.idle idle
    rw [stepsLeft_rest, stepsLeft, idle, pending]
    simp only [ticked, Ticker.release_runs, Ticker.tick_runs]
    omega
  | fails t ticked idle =>
    have more := parting.idle idle
    simp only [stepsLeft, ticked, Ticker.tick_runs, idle, pending]
    omega
  | ends busy =>
    rw [stepsLeft_rest, stepsLeft, busy, pending]
    simp only [Ticker.release_runs]
    omega
  | crashes busy =>
    simp only [stepsLeft, busy, pending]
    omega

theorem le_alone (n ends : Nat) (l : Loop σ) : ends ≤ (l.alone n ends).1 := by
  induction n generalizing ends l with
  | zero => exact Nat.le_refl _
  | succ n ih =>
    rw [alone]
    cases l.due with
    | none => exact Nat.le_refl _
    | some now => exact Nat.le_trans (Nat.le_max_left ..) (ih _ _)

/-- with a step for all that can happen in it, a loop that is to stop is followed until it is over -/
theorem Parting.overBy_alone (parting : l.Parting) {n : Nat} (enough : l.stepsLeft ≤ n) (ends : Nat) :
    l.OverBy (l.alone n ends).1 := by
  induction n generalizing l ends with
  | zero =>
    refine .quiet ?_
    rw [stepsLeft] at enough
    cases phase : l.phase with
    | fresh | busy => simp [phase, pending] at enough
    | idle =>
      have := parting.idle phase
      omega
    | ended | crashed => rw [due, phase]
  | succ n ih =>
    rw [alone]
    cases due : l.due with
    | none => exact .quiet due
    | some now =>
      have acts := act_acts due
      have fewer := acts.stepsLeft_lt parting
      have le := le_alone n (max ends now) (l.act now).1
      exact .acts due (Nat.le_trans (Nat.le_max_right ..) le) (ih (parting.acts acts) (by omega) _)

/-- told to stop, a loop is over when it was followed to its end -/
theorem overBy_last (l : Loop σ) (now ends : Nat) : (l.stop now).OverBy (l.last now ends).1 :=
  (l.parting_stop now).overBy_alone (l.stepsLeft_stop now) ends

/-- how a loop is over does not depend on how long others take -/
theorem alone_snd (n ends ends' : Nat) (l : Loop σ) : (l.alone n ends).2 = (l.alone n ends').2 := by
  induction n generalizing ends ends' l with
  | zero => rfl
  | succ n ih =>
    rw [alone, alone]
    cases l.due with
    | none => rfl
    | some now => exact ih ..

theorem doomed_of_crashed (crashed : l.phase = .crashed) : l.Doomed now := by
  have quiet : (l.stop now).due = none := by
    rw [due, l.stop_other now (by simp [crashed])]
    simp [crashed]
  rw [Doomed, last, alone, quiet]
  simp [l.stop_other now, crashed]

end Loop

namespace Schedule

/-! ## Steps -/

inductive Step (σ : Type) where
  | register (scheduler : Nat) (job : Job σ)
  | sleep (millis : Nat)
  | shutdown (scheduler : Nat)

def act : Step σ → Schedule σ → Schedule σ × List (Event σ)
  | .register scheduler job, s => (s.register scheduler job, [])
  | .sleep millis, s => s.sleep millis
  | .shutdown scheduler, s => (s.shutdown scheduler).2

/-- some steps one after another, and what happens in them -/
def play : List (Step σ) → Schedule σ → Schedule σ × List (Event σ)
  | [], s => (s, [])
  | step :: steps, s => ((play steps (act step s).1).1, (act step s).2 ++ (play steps (act step s).1).2)

variable (s : Schedule σ) (k : Nat)

/-- when a shutdown returns -/
def returns : Nat := (awaited s.now s.now (s.own k)).1

variable {s k}

theorem mem_stop {l : Loop σ} (there : l ∈ (s.stop k).loops) :
    ∃ l₀ ∈ s.loops, l = if l₀.scheduler = k then l₀.stop s.now else l₀ := by
  obtain ⟨l₀, there, same⟩ := List.mem_map.1 there
  exact ⟨l₀, there, same.symm⟩

/-- a shutdown serves what is due until it returns, if it has to wait for the first loop -/
theorem shutdown_waits (wait : mustWait (s.own k) = true) :
    s.shutdown k = ((awaited s.now s.now (s.own k)).2, { (s.stop k).serve (s.returns k + 1) |>.1 with now := s.returns k },
      ((s.stop k).serve (s.returns k + 1)).2) :=
  if_pos wait

theorem shutdown_at_once (wait : mustWait (s.own k) = false) :
    s.shutdown k = ((awaited s.now s.now (s.own k)).2, s.stop k, []) :=
  if_neg (by rw [Bool.not_eq_true]; exact wait)

theorem shutdown_clean : (s.shutdown k).1 = (awaited s.now s.now (s.own k)).2 := by
  cases wait : mustWait (s.own k) with
  | false => rw [shutdown_at_once wait]
  | true => rw [shutdown_waits wait]

/-! ## Every schedule that is reached -/

/-- what holds of every schedule -/
structure Fit (s : Schedule σ) : Prop where
  sound : ∀ l ∈ s.loops, l.Sound s.now
  numbers : (s.loops.map (·.number)).Perm (List.range s.loops.length)

theorem Fit.new : ({} : Schedule σ).Fit := ⟨nofun, .refl _⟩

theorem Fit.register (fit : s.Fit) (k : Nat) (job : Job σ) : (s.register k job).Fit where
  sound l there := by
    rcases List.mem_append.1 there with there | there
    · exact fit.sound l there
    · rw [List.mem_singleton.1 there]
      exact .start ..
  numbers := by
    rw [Schedule.register, List.map_append, List.map_singleton, List.length_append, List.length_singleton, List.range_succ]
    exact fit.numbers.append_right _

theorem Fit.stop (fit : s.Fit) (k : Nat) : (s.stop k).Fit where
  sound l there := by
    obtain ⟨l₀, before, rfl⟩ := mem_stop there
    split_ifs
    · exact (fit.sound l₀ before).stop
    · exact fit.sound l₀ before
  numbers := by
    have same : (s.stop k).loops.map (·.number) = s.loops.map (·.number) := by
      rw [Schedule.stop, List.map_map]
      refine List.map_congr_left fun l _ => ?_
      dsimp only [Function.comp]
      split_ifs
      · exact (l.stop_same s.now).1
      · rfl
    rw [same, Schedule.stop, List.length_map]
    exact fit.numbers

/-- what is due has been served, so no loop is fresh if time has moved on -/
theorem Fit.serve (fit : s.Fit) {limit later : Nat} (on : s.now < limit ∨ later = s.now) :
    { (s.serve limit).1 with now := later }.Fit where
  sound l there := by
    have acts (l : Loop σ) (now : Nat) (h : l.Sound s.now) (due : l.due = some now) (_ : now < limit) :
        (l.act now).1.Sound s.now ∧ ∀ e ∈ (l.act now).2, True :=
      ⟨h.acts (Loop.act_acts due), fun _ _ => trivial⟩
    have sound := (serve_forall acts fit.sound).1 l there
    refine ⟨sound.paced, fun fresh => ?_, sound.ended⟩
    rcases on with on | same
    · have due : l.due = some s.now := by
        rw [Loop.due, fresh, sound.fresh fresh]
        rfl
      have := serve_complete (fun l there => (fit.sound l there).paced) limit l there _ due
      omega
    · rw [same]
      exact sound.fresh fresh
  numbers := by
    have perm : ((s.serve limit).1.loops.map (·.number)).Perm (s.loops.map (·.number)) :=
      settle_map (fun l now due => (Loop.act_acts due).same.1) _ _
    have length := perm.length_eq
    rw [List.length_map, List.length_map] at length
    refine perm.trans ?_
    rw [length]
    exact fit.numbers

theorem le_awaited (now ends : Nat) (ls : List (Loop σ)) : ends ≤ (awaited now ends ls).1 := by
  induction ls generalizing ends with
  | nil => exact Nat.le_refl _
  | cons l ls ih =>
    have le : ends ≤ (l.last now ends).1 := Loop.le_alone ..
    rw [awaited]
    dsimp only
    split_ifs
    · exact le
    · exact Nat.le_trans le (ih _)

theorem Fit.act (fit : s.Fit) (step : Step σ) : (act step s).1.Fit := by
  cases step with
  | register k job => exact fit.register k job
  | sleep millis =>
    refine fit.serve ?_
    omega
  | shutdown k =>
    cases wait : mustWait (s.own k) with
    | false =>
      rw [Schedule.act, shutdown_at_once wait]
      exact fit.stop k
    | true =>
      rw [Schedule.act, shutdown_waits wait]
      exact (fit.stop k).serve (.inl (Nat.lt_succ_of_le (le_awaited ..)))

theorem Fit.play (fit : s.Fit) (steps : List (Step σ)) : (play steps s).1.Fit := by
  induction steps generalizing s with
  | nil => exact fit
  | cons step steps ih => exact ih (fit.act step)

/-! ## What stays true -/

section Forall

variable {P : Loop σ → Prop} {E : Event σ → Prop}

/-- what holds of the loops that have been told to stop, and of what is served then -/
theorem shutdown_forall (acts : ∀ l now, P l → l.due = some now → P (l.act now).1 ∧ ∀ e ∈ (l.act now).2, E e)
    (here : ∀ l ∈ (s.stop k).loops, P l) :
    (∀ l ∈ (s.shutdown k).2.1.loops, P l) ∧ ∀ e ∈ (s.shutdown k).2.2, E e := by
  cases wait : mustWait (s.own k) with
  | false =>
    rw [shutdown_at_once wait]
    exact ⟨here, nofun⟩
  | true =>
    rw [shutdown_waits wait]
    exact serve_forall (fun l now h due _ => acts l now h due) here

theorem act_forall (acts : ∀ l now, P l → l.due = some now → P (l.act now).1 ∧ ∀ e ∈ (l.act now).2, E e) (step : Step σ)
    (starts : ∀ k job, step = .register k job → ∀ number now, P (.start number k now job))
    (stops : ∀ (l : Loop σ) now, step = .shutdown l.scheduler → P l → P (l.stop now)) (here : ∀ l ∈ s.loops, P l) :
    (∀ l ∈ (act step s).1.loops, P l) ∧ ∀ e ∈ (act step s).2, E e := by
  cases step with
  | register k job =>
    refine ⟨fun l there => ?_, nofun⟩
    rcases List.mem_append.1 there with there | there
    · exact here l there
    · rw [List.mem_singleton.1 there]
      exact starts k job rfl _ _
  | sleep millis => exact serve_forall (fun l now h due _ => acts l now h due) here
  | shutdown k =>
    refine shutdown_forall acts fun l there => ?_
    obtain ⟨l₀, before, rfl⟩ := mem_stop there
    split_ifs with own
    · exact stops l₀ s.now (by rw [own]) (here l₀ before)
    · exact here l₀ before

theorem play_forall (acts : ∀ l now, P l → l.due = some now → P (l.act now).1 ∧ ∀ e ∈ (l.act now).2, E e)
    (steps : List (Step σ)) (starts : ∀ k job, .register k job ∈ steps → ∀ number now, P (.start number k now job))
    (stops : ∀ (l : Loop σ) now, .shutdown l.scheduler ∈ steps → P l → P (l.stop now)) (here : ∀ l ∈ s.loops, P l) :
    (∀ l ∈ (play steps s).1.loops, P l) ∧ ∀ e ∈ (play steps s).2, E e := by
  induction steps generalizing s with
  | nil => exact ⟨here, nofun⟩
  | cons step steps ih =>
    have acted := act_forall acts step (fun k job same => starts k job (by simp [same]))
      (fun l now same => stops l now (by simp [same])) here
    have played := ih (fun k job there => starts k job (List.mem_cons_of_mem _ there))
      (fun l now there => stops l now (List.mem_cons_of_mem _ there)) acted.1
    exact ⟨played.1, fun e there => (List.mem_append.1 there).elim (acted.2 e) (played.2 e)⟩

end Forall

/-- a loop of a scheduler that is not shut down is not told to stop -/
theorem play_unstopped {steps : List (Step σ)} (up : .shutdown k ∉ steps) :
    ∀ l ∈ (play steps {}).1.loops, l.scheduler = k → l.stopping = false := by
  refine (play_forall (E := fun _ => True) (fun l now h due => ⟨fun own => ?_, fun _ _ => trivial⟩) steps
    (fun _ _ _ _ _ _ => rfl) (fun l now there _ own => ?_) nofun).1
  · have same := (Loop.act_acts due).same
    rw [same.2.2.2]
    exact h (by rw [← own, same.2.1])
  · rw [(l.stop_same now).2.1] at own
    exact absurd (own ▸ there) up

/-- **What is still stays so.** Loops are told by scheduler, number and subject; if of some of these all are still at a
time, and none is registered any more, then they stay still whatever follows, and nothing happens in them. -/
theorem stays_still {C : Nat → Nat → σ → Prop} {P : Loop σ → Prop} {later : List (Step σ)}
    (given : ∀ k job, .register k job ∈ later → ∀ n, ¬ C k n job.subject)
    (kept : ∀ l l' : Loop σ, l'.number = l.number → l'.ticker.runs = l.ticker.runs → P l → P l')
    (still : ∀ l ∈ s.loops, C l.scheduler l.number l.job.subject → l.Still ∧ P l) :
    (∀ l ∈ (play later s).1.loops, C l.scheduler l.number l.job.subject → l.Still ∧ P l) ∧
      ∀ e ∈ (play later s).2, ∃ k n, ¬ C k n e.subject := by
  refine play_forall (fun l now h due => ?_) later (fun k job there n now mine => ?_) (fun l now _ h mine => ?_) still
  · have acts := Loop.act_acts due
    obtain ⟨number, scheduler, job, _⟩ := acts.same
    by_cases mine : C l.scheduler l.number l.job.subject
    · obtain ⟨still, p⟩ := h mine
      obtain ⟨still', nothing, runs⟩ := still.acts acts
      refine ⟨fun _ => ⟨still', kept l _ number runs p⟩, fun e there => ?_⟩
      rw [nothing] at there
      cases there
    · refine ⟨fun mine' => absurd ?_ mine, fun e there => ⟨l.scheduler, l.number, ?_⟩⟩
      · rw [number, scheduler, job] at mine'
        exact mine'
      · rw [acts.subject e there]
        exact mine
  · exact absurd mine (given k job there n)
  · obtain ⟨number, scheduler, job, ticker, _⟩ := l.stop_same now
    rw [number, scheduler, job] at mine
    obtain ⟨still, p⟩ := h mine
    exact ⟨still.stop now, kept l _ number (by rw [ticker]) p⟩

/-! ## What a shutdown waits for -/

theorem Fit.eq_of_number (fit : s.Fit) {l l' : Loop σ} (there : l ∈ s.loops) (there' : l' ∈ s.loops)
    (same : l.number = l'.number) : l = l' :=
  List.inj_on_of_nodup_map (fit.numbers.nodup_iff.2 List.nodup_range) there there' same

theorem Fit.mem_own (fit : s.Fit) {l : Loop σ} : l ∈ s.own k ↔ l ∈ s.loops ∧ l.scheduler = k := by
  rw [own, List.mem_filterMap]
  constructor
  · rintro ⟨n, _, found⟩
    have told := List.find?_some found
    simp only [Bool.and_eq_true, decide_eq_true_eq] at told
    exact ⟨List.mem_of_find?_eq_some found, told.2⟩
  · rintro ⟨there, own⟩
    refine ⟨l.number, fit.numbers.mem_iff.1 (List.mem_map_of_mem there), ?_⟩
    cases found : s.loops.find? fun l' => l'.number = l.number && l'.scheduler = k with
    | none => exact absurd (List.find?_eq_none.1 found l there) (by simp [own])
    | some l' =>
      have told := List.find?_some found
      simp only [Bool.and_eq_true, decide_eq_true_eq] at told
      rw [fit.eq_of_number (List.mem_of_find?_eq_some found) there told.1]

variable (s k) in
theorem own_sorted : (s.own k).Pairwise fun a b => a.number < b.number := by
  rw [own, List.pairwise_filterMap]
  refine List.pairwise_lt_range.imp fun {m n} lt a found b found' => ?_
  have told := List.find?_some found
  have told' := List.find?_some found'
  simp only [Bool.and_eq_true, decide_eq_true_eq] at told told'
  rwa [told.1, told'.1]

section Awaited

variable {now : Nat} {ls : List (Loop σ)} {l : Loop σ}

variable (ls) in
theorem awaited_of_fine (fine : ¬ l.Doomed now) (ends : Nat) :
    awaited now ends (l :: ls) = awaited now (l.last now ends).1 ls := by
  rw [Loop.Doomed, Loop.last, Loop.alone_snd _ now ends] at fine
  exact if_neg fine

variable (ls) in
theorem awaited_of_doomed (doomed : l.Doomed now) (ends : Nat) :
    awaited now ends (l :: ls) = ((l.last now ends).1, false) := by
  rw [Loop.Doomed, Loop.last, Loop.alone_snd _ now ends] at doomed
  exact if_pos doomed

/-- a shutdown that is clean has met no loop that is doomed -/
theorem fine_of_awaited {ends : Nat} (clean : (awaited now ends ls).2 = true) : ∀ d ∈ ls, ¬ d.Doomed now := by
  induction ls generalizing ends with
  | nil => nofun
  | cons l ls ih =>
    have fine : ¬ l.Doomed now := fun doomed => by simp [awaited_of_doomed ls doomed] at clean
    rw [awaited_of_fine ls fine] at clean
    exact fun d there => (List.mem_cons.1 there).elim (fun same => same ▸ fine) (ih clean d)

/-- a loop before which none is doomed is waited for -/
theorem overBy_awaited (sorted : ls.Pairwise fun a b => a.number < b.number) (there : l ∈ ls)
    (first : ∀ d ∈ ls, d.Doomed now → l.number ≤ d.number) (ends : Nat) :
    (l.stop now).OverBy (awaited now ends ls).1 := by
  induction ls generalizing ends with
  | nil => cases there
  | cons x ls ih =>
    rw [List.pairwise_cons] at sorted
    rcases List.mem_cons.1 there with rfl | there
    · by_cases doomed : l.Doomed now
      · rw [awaited_of_doomed ls doomed]
        exact l.overBy_last now ends
      · rw [awaited_of_fine ls doomed]
        exact (l.overBy_last now ends).mono (le_awaited ..)
    · have fine : ¬ x.Doomed now := fun doomed =>
        absurd (first x List.mem_cons_self doomed) (Nat.not_le_of_lt (sorted.1 l there))
      rw [awaited_of_fine ls fine]
      exact ih sorted.2 there (fun d there => first d (List.mem_cons_of_mem _ there)) _

/-- if a loop is engaged before which none is doomed, then the first is to be waited for -/
theorem mustWait_of_engaged (sorted : ls.Pairwise fun a b => a.number < b.number) (there : l ∈ ls)
    (first : ∀ d ∈ ls, d.Doomed now → l.number ≤ d.number) (engaged : l.Engaged now)
    (up : ∀ l ∈ ls, l.phase ≠ .ended) : mustWait ls = true := by
  cases ls with
  | nil => cases there
  | cons x ls =>
    have going : x.phase ≠ .crashed := by
      intro crashed
      rcases List.mem_cons.1 there with rfl | there
      · rcases engaged with ⟨till, busy⟩ | ⟨idle, _⟩
        · simp [crashed] at busy
        · simp [crashed] at idle
      · exact absurd (first x List.mem_cons_self (Loop.doomed_of_crashed crashed))
          (Nat.not_le_of_lt ((List.pairwise_cons.1 sorted).1 l there))
    simp [mustWait, going, up x List.mem_cons_self]

end Awaited

/-! ## What a shutdown leaves -/

/-- a shutdown lets the loop of a number go: it is engaged, and one that is doomed was registered before -/
def LetsGo (s : Schedule σ) (k number : Nat) : Prop :=
  ∃ l ∈ s.loops, ∃ d ∈ s.loops, l.scheduler = k ∧ d.scheduler = k ∧ l.number = number ∧ d.number < number ∧
    l.Engaged s.now ∧ d.Doomed s.now

instance (s : Schedule σ) (k number : Nat) : Decidable (s.LetsGo k number) :=
  inferInstanceAs (Decidable (∃ l ∈ s.loops, ∃ d ∈ s.loops, _ ∧ _))

/-- a loop that is engaged and not let go is over when a shutdown returns -/
theorem overBy_returns (fit : s.Fit) (up : ∀ l ∈ s.loops, l.scheduler = k → l.stopping = false) {l : Loop σ}
    (there : l ∈ s.loops) (own : l.scheduler = k) (held : ¬ s.LetsGo k l.number) (engaged : l.Engaged s.now) :
    mustWait (s.own k) = true ∧ (l.stop s.now).OverBy (s.returns k) := by
  have first (d : Loop σ) (other : d ∈ s.own k) (doomed : d.Doomed s.now) : l.number ≤ d.number := by
    obtain ⟨other, own'⟩ := fit.mem_own.1 other
    by_contra before
    exact held ⟨l, there, d, other, own, own', rfl, Nat.lt_of_not_le before, engaged, doomed⟩
  have going (d : Loop σ) (other : d ∈ s.own k) : d.phase ≠ .ended := by
    obtain ⟨other, own'⟩ := fit.mem_own.1 other
    intro ended
    exact absurd ((fit.sound d other).ended ended) (by simp [up d other own'])
  exact ⟨mustWait_of_engaged (own_sorted s k) (fit.mem_own.2 ⟨there, own⟩) first engaged going,
    overBy_awaited (own_sorted s k) (fit.mem_own.2 ⟨there, own⟩) first s.now⟩

/-- a loop that a shutdown does not let go is still when it returns -/
theorem still_of_not_letsGo (fit : s.Fit) (up : ∀ l ∈ s.loops, l.scheduler = k → l.stopping = false) :
    ∀ l ∈ (s.shutdown k).2.1.loops, l.scheduler = k → ¬ s.LetsGo k l.number → l.Still := by
  -- while it is waited for, such a loop is still, or it will be over in time
  let Kept (l : Loop σ) : Prop := l.scheduler = k → ¬ s.LetsGo k l.number →
    l.Still ∨ mustWait (s.own k) = true ∧ l.OverBy (s.returns k)
  have told : ∀ l ∈ (s.stop k).loops, Kept l := by
    intro l there own held
    obtain ⟨l₀, before, rfl⟩ := mem_stop there
    split_ifs at own held ⊢ with mine
    · rw [(l₀.stop_same s.now).1] at held
      exact (fit.sound l₀ before).stop_still_or.imp id (overBy_returns fit up before mine held)
    · exact absurd own mine
  have served : ∀ l ∈ (s.shutdown k).2.1.loops, Kept l := by
    refine (shutdown_forall (E := fun _ => True) (fun l now h due => ⟨fun own held => ?_, fun _ _ => trivial⟩) told).1
    have acts := Loop.act_acts due
    obtain ⟨number, scheduler, _, _⟩ := acts.same
    rw [scheduler] at own
    rw [number] at held
    rcases h own held with still | ⟨wait, ends⟩
    · exact .inl (still.acts acts).1
    · exact .inr ⟨wait, (ends.act due).2⟩
  intro l there own held
  rcases served l there own held with still | ⟨wait, ends⟩
  · exact still
  · rw [shutdown_waits wait] at there
    have late := serve_complete (fun l there => ((fit.stop k).sound l there).paced) (s.returns k + 1) l there
    cases due : l.due with
    | none => exact Loop.still_of_due due
    | some now => exact absurd (ends.act due).1 (Nat.not_le_of_lt (late now due))

/-- a run that is over after a shutdown has returned is still under way then -/
theorem run_outlives_shutdown {l : Loop σ} (there : l ∈ s.loops) (own : l.scheduler = k) {till : Nat}
    (busy : l.phase = .busy till) (late : (s.shutdown k).2.1.now < till) : l.stop s.now ∈ (s.shutdown k).2.1.loops := by
  have told : l.stop s.now ∈ (s.stop k).loops := List.mem_map.2 ⟨l, there, if_pos own⟩
  cases wait : mustWait (s.own k) with
  | false =>
    rw [shutdown_at_once wait]
    exact told
  | true =>
    rw [shutdown_waits wait] at late ⊢
    refine settle_spares (fun d due => ?_) _ told
    rw [Loop.due, l.stop_other s.now (by simp [busy])] at due
    simp only [busy, Option.some.injEq] at due
    dsimp only at late
    omega

/-- **What a shutdown leaves running.** Whatever jobs have been registered and whatever has happened, once a shutdown has
returned, clean or not, no run of a loop of the scheduler is under way, and none starts or finishes whatever follows,
unless the shutdown lets the loop go: it was in a run, or at a tick that was due and that it took before it stopped, and
was registered after one that had crashed or was about to. A shutdown that is clean lets none go. A run that takes longer
than the shutdown goes on. -/
theorem shutdown_leaves_nothing (steps later : List (Step σ)) (k : Nat) (up : .shutdown k ∉ steps)
    (given : ∀ job, .register k job ∉ later) :
    let s := (play steps {}).1
    let t := (s.shutdown k).2.1
    let u := play later t
    ((s.shutdown k).1 = true → ∀ number, ¬ s.LetsGo k number) ∧
      (∀ l ∈ u.1.loops, l.scheduler = k → ¬ s.LetsGo k l.number → ¬ l.InRun ∧
        ∃ l₀ ∈ t.loops, l₀.number = l.number ∧ ¬ l₀.InRun ∧ l₀.ticker.runs = l.ticker.runs) ∧
      (∀ x, (∀ l ∈ t.loops, l.job.subject = x → l.scheduler = k ∧ ¬ s.LetsGo k l.number) →
        (∀ n job, .register n job ∈ later → job.subject ≠ x) → ∀ e ∈ u.2, e.subject ≠ x) ∧
      ∀ l ∈ s.loops, l.scheduler = k → ∀ till, l.phase = .busy till → t.now < till →
        ∃ l' ∈ t.loops, l'.number = l.number ∧ l'.phase = .busy till ∧ l'.ticker.runs = l.ticker.runs := by
  intro s t u
  have fit : s.Fit := Fit.new.play steps
  have still : ∀ l ∈ t.loops, l.scheduler = k → ¬ s.LetsGo k l.number → l.Still :=
    still_of_not_letsGo fit (play_unstopped up)
  refine ⟨fun clean number => ?_, ?_, fun x mine others e there => ?_, fun l there own till busy late => ?_⟩
  · rintro ⟨l, _, d, there, _, own, _, _, _, doomed⟩
    rw [shutdown_clean] at clean
    exact fine_of_awaited clean d (fit.mem_own.2 ⟨there, own⟩) doomed
  · intro l there own held
    have stays := (stays_still (C := fun n number _ => n = k ∧ ¬ s.LetsGo k number)
      (P := fun l => ∃ l₀ ∈ t.loops, l₀.number = l.number ∧ ¬ l₀.InRun ∧ l₀.ticker.runs = l.ticker.runs) (s := t)
      (fun n job there _ own => given job (own.1 ▸ there)) ?_ ?_).1 l there ⟨own, held⟩
    · exact ⟨stays.1.not_inRun, stays.2⟩
    · rintro l l' number runs ⟨l₀, there, same⟩
      exact ⟨l₀, there, by rw [number, runs]; exact same⟩
    · exact fun l there mine => ⟨still l there mine.1 mine.2, l, there, rfl, (still l there mine.1 mine.2).not_inRun, rfl⟩
  · have silent := (stays_still (C := fun _ _ y => y = x) (P := fun _ => True) (s := t)
      (fun n job there _ => others n job there) (fun _ _ _ _ => id) ?_).2 e there
    · obtain ⟨_, _, other⟩ := silent
      exact other
    · exact fun l there same => ⟨still l there (mine l there same).1 (mine l there same).2, trivial⟩
  · have same := l.stop_other s.now (by simp [busy])
    exact ⟨l.stop s.now, run_outlives_shutdown there own busy late, by rw [same], by rw [same, busy], by rw [same]⟩

/-- two loops take the tick that is due before they stop; the second crashes in this run, and the first is over before: none
is let go -/
theorem shutdown_leaves_nothing_after_crash :
    let steps : List (Step Nat) :=
      [.register 0 { subject := 1, interval := .ofMillis 10, takes := .every 3, overtime := 1 },
        .register 0 { subject := 2, interval := .ofMillis 20, crashesIn := some 1, crashesAfter := 7, overtime := 4 },
        .register 1 { subject := 3, interval := .ofMillis 25 }, .sleep 20]
    let s := (play steps {}).1
    let t := (s.shutdown 0).2.1
    (s.shutdown 0).1 = false ∧ t.now = 27 ∧ (s.shutdown 0).2.2 = [.started 20 2 1, .started 20 1 2, .finished 23 1 2,
        .started 25 3 1, .finished 25 3 1] ∧
      (∀ e ∈ (play [.sleep 100] t).2, e.subject ≠ 1) ∧
      (play [.sleep 40] t).2 = [.started 50 3 2, .finished 50 3 2] := by
  intro steps s t
  have left := shutdown_leaves_nothing steps [.sleep 100] 0 (by simp [steps]) (by simp)
  refine ⟨by decide +kernel, by decide +kernel, by decide +kernel, ?_, by decide +kernel⟩
  exact left.2.2.1 1 (by decide +kernel) (by simp)

/-- the first of two jobs has crashed, so the shutdown does not wait for the run of the second, which finishes later -/
theorem shutdown_leaves_run :
    let steps : List (Step Nat) := [.register 0 { subject := 1, interval := .ofMillis 10, crashesIn := some 1 },
      .register 0 { subject := 2, interval := .ofMillis 50, takes := .every 20 }, .sleep 60]
    let s := (play steps {}).1
    let t := (s.shutdown 0).2.1
    (play steps {}).2 = [.started 10 1 1, .started 50 2 1] ∧ (s.shutdown 0).1 = false ∧ (s.shutdown 0).2.2 = [] ∧
      t.loops.map (fun l => (l.scheduler, l.phase)) = [(0, .crashed), (0, .busy 70)] ∧
      (play [.sleep 20] t).2 = [.finished 70 2 1] := by
  decide +kernel

/-- nor does it where the first crashes in a run that it takes before it stops -/
example :
    let steps : List (Step Nat) :=
      [.register 0 { subject := 1, interval := .ofMillis 60, crashesIn := some 1, overtime := 1 },
        .register 0 { subject := 2, interval := .ofMillis 50, takes := .every 20 }, .sleep 60]
    let s := (play steps {}).1
    let t := (s.shutdown 0).2.1
    (s.shutdown 0).1 = false ∧ (s.shutdown 0).2.2 = [.started 60 1 1] ∧ s.LetsGo 0 1 ∧
      (play [.sleep 20] t).2 = [.finished 70 2 1] := by
  decide +kernel

end Schedule

end RowFiles
