/-
What is told of each registered job, also where several work on the same.

- `Schedule.play_map`: a schedule goes by times, numbers and phases. Steps whose jobs work on something else go the same
  way, and tell the same of it.
- `Schedule.Step.numbered`: the same steps, where what a job works on also names its registration.
  `Schedule.play_numbered`: they tell the same but for these names. `Schedule.toldOf`: what they tell of one registration.
- `Schedule.Traced`: what holds of every loop and all that was told of it. `Schedule.Traced.play`: if each act of a loop
  keeps it, so do any steps.
-/
import RowFiles.Proofs.Shutdowns

namespace RowFiles

variable {σ τ : Type} (f : σ → τ)

/-! ## Something else to work on -/

/-- the same of another subject -/
def Event.map : Event σ → Event τ
  | .started time x run => .started time (f x) run
  | .finished time x run => .finished time (f x) run
  | .failed time x run => .failed time (f x) run

/-- a job that does the same for another subject -/
def Job.map (j : Job σ) : Job τ := { j with subject := f j.subject }

theorem Job.over_map (j : Job σ) (now run : Nat) : (j.map f).over now run = (j.over now run).map (Event.map f) := by
  rw [Job.over, Job.over]
  cases fails : j.fails run <;> simp [Job.map, fails, Event.map]

namespace Loop

def map (l : Loop σ) : Loop τ :=
  { number := l.number, scheduler := l.scheduler, job := l.job.map f, ticker := l.ticker, phase := l.phase,
    stopping := l.stopping, lastRun := l.lastRun }

variable (l : Loop σ)

theorem due_map : (l.map f).due = l.due := rfl

theorem stop_map (now : Nat) : (l.map f).stop now = (l.stop now).map f := by
  by_cases idle : l.phase = .idle
  · rw [l.stop_idle now idle, (l.map f).stop_idle now idle]
    rfl
  · rw [l.stop_other now idle, (l.map f).stop_other now idle]
    rfl

theorem finish_map (now : Nat) :
    (l.map f).finish now = ((l.finish now).1.map f, (l.finish now).2.map (Event.map f)) := by
  have same : (l.map f).job.crashes (l.map f).ticker.runs = l.job.crashes l.ticker.runs := rfl
  rw [finish, finish, same]
  split_ifs
  · rfl
  · exact Prod.ext rfl (l.job.over_map f now l.ticker.runs)

theorem act_map (now : Nat) : (l.map f).act now = ((l.act now).1.map f, (l.act now).2.map (Event.map f)) := by
  obtain ⟨number, scheduler, job, ticker, phase, stopping, lastRun⟩ := l
  cases phase with
  | fresh =>
    by_cases able : usable now job.interval = true <;> simp only [act, map, Job.map, able] <;> rfl
  | idle =>
    have finished := finish_map f ⟨number, scheduler, job, ticker.tick now, .idle, stopping, lastRun⟩ now
    rw [map] at finished
    have length : (job.map f).length (ticker.tick now).runs = job.length (ticker.tick now).runs := rfl
    rw [act, act]
    dsimp only [map]
    rw [length, finished]
    cases job.length (ticker.tick now).runs <;> rfl
  | busy => exact finish_map f _ now
  | ended | crashed => rfl

theorem alone_map (n ends : Nat) : (l.map f).alone n ends = ((l.alone n ends).1, (l.alone n ends).2.map f) := by
  induction n generalizing ends l with
  | zero => rfl
  | succ n ih =>
    rw [alone, alone, due_map]
    cases l.due with
    | none => rfl
    | some now =>
      dsimp only
      rw [act_map, ih]

theorem last_map (now ends : Nat) : (l.map f).last now ends = ((l.last now ends).1, (l.last now ends).2.map f) := by
  rw [last, stop_map, alone_map]
  rfl

end Loop

namespace Schedule

def map (s : Schedule σ) : Schedule τ := { s with loops := s.loops.map (Loop.map f) }

variable (loops : List (Loop σ)) (s : Schedule σ)

theorem nextDue_map (limit : Nat) : nextDue (loops.map (Loop.map f)) limit = nextDue loops limit := by
  rw [nextDue, List.foldl_map]
  rfl

theorem actFirst_map (now : Nat) : actFirst now (loops.map (Loop.map f)) =
    ((actFirst now loops).1.map (Loop.map f), (actFirst now loops).2.map (Event.map f)) := by
  induction loops with
  | nil => rfl
  | cons l ls ih =>
    rw [List.map_cons, actFirst, actFirst, Loop.due_map, Loop.act_map, ih]
    split_ifs
    · dsimp only
      rw [Loop.due_map]
      split_ifs <;> simp
    · rfl

theorem settle_renamed (limit fuel : Nat) (done : List (Event σ)) :
    settle limit fuel (loops.map (Loop.map f)) (done.map (Event.map f)) =
      ((settle limit fuel loops done).1.map (Loop.map f), (settle limit fuel loops done).2.map (Event.map f)) := by
  induction fuel generalizing loops done with
  | zero => rfl
  | succ fuel ih =>
    rw [settle, settle, nextDue_map]
    cases nextDue loops limit with
    | none => rfl
    | some now =>
      dsimp only
      rw [actFirst_map, ← List.map_reverse, ← List.map_append]
      exact ih _ _

theorem serve_map (limit : Nat) :
    (s.map f).serve limit = ((s.serve limit).1.map f, (s.serve limit).2.map (Event.map f)) := by
  have fuel : (s.map f).loops.foldr (fun l n => l.bound limit + n) 1 = s.loops.foldr (fun l n => l.bound limit + n) 1 := by
    rw [Schedule.map, List.foldr_map]
    rfl
  have settled := settle_renamed f s.loops limit (s.loops.foldr (fun l n => l.bound limit + n) 1) []
  rw [List.map_nil] at settled
  rw [serve, serve, fuel]
  dsimp only [Schedule.map]
  rw [settled, List.map_reverse]

theorem stop_map (k : Nat) : (s.map f).stop k = (s.stop k).map f := by
  rw [stop, stop, Schedule.map, Schedule.map]
  dsimp only
  rw [List.map_map, List.map_map]
  congr 1
  refine List.map_congr_left fun l _ => ?_
  have scheduler : (l.map f).scheduler = l.scheduler := rfl
  dsimp only [Function.comp]
  rw [scheduler]
  split_ifs
  · exact l.stop_map f s.now
  · rfl

theorem own_map (k : Nat) : (s.map f).own k = (s.own k).map (Loop.map f) := by
  rw [own, own, List.map_filterMap, Schedule.map, List.length_map]
  refine List.filterMap_congr fun n _ => ?_
  rw [List.find?_map]
  rfl

theorem awaited_map (now ends : Nat) : awaited now ends (loops.map (Loop.map f)) = awaited now ends loops := by
  induction loops generalizing ends with
  | nil => rfl
  | cons l ls ih =>
    rw [List.map_cons, awaited, awaited, Loop.last_map]
    dsimp only
    rw [ih]
    rfl

theorem mustWait_map : mustWait (loops.map (Loop.map f)) = mustWait loops := by cases loops <;> rfl

theorem shutdown_map (k : Nat) : (s.map f).shutdown k =
    ((s.shutdown k).1, (s.shutdown k).2.1.map f, (s.shutdown k).2.2.map (Event.map f)) := by
  have now : (s.map f).now = s.now := rfl
  rw [shutdown, shutdown, own_map, now, awaited_map, mustWait_map]
  dsimp only
  rw [stop_map, serve_map]
  split_ifs <;> rfl

def Step.map : Step σ → Step τ
  | .register scheduler job => .register scheduler (job.map f)
  | .sleep millis => .sleep millis
  | .shutdown scheduler => .shutdown scheduler

theorem act_map (step : Step σ) :
    act (step.map f) (s.map f) = ((act step s).1.map f, (act step s).2.map (Event.map f)) := by
  cases step with
  | register k job =>
    refine Prod.ext ?_ rfl
    rw [act, Step.map, act, register, register, Schedule.map, Schedule.map, List.length_map, List.map_append]
    rfl
  | sleep millis =>
    have now : (s.map f).now = s.now := rfl
    rw [act, Step.map, act, sleep, sleep, now, serve_map]
    rfl
  | shutdown k =>
    rw [act, Step.map, act, shutdown_map]

/-- **What jobs work on is not looked at.** -/
theorem play_map (steps : List (Step σ)) : play (steps.map (Step.map f)) (s.map f) =
    ((play steps s).1.map f, (play steps s).2.map (Event.map f)) := by
  induction steps generalizing s with
  | nil => rfl
  | cons step steps ih => rw [List.map_cons, play, play, act_map, ih, List.map_append]

/-! ## Registrations by number -/

/-- how many jobs a step registers -/
def Step.adds : Step σ → Nat
  | .register .. => 1
  | .sleep _ | .shutdown _ => 0

@[simp] theorem Step.adds_map (step : Step σ) : (step.map f).adds = step.adds := by cases step <;> rfl

/-- the same steps after `n` registrations, where what a job works on also names the registration -/
def Step.numbered (n : Nat) : List (Step σ) → List (Step (Nat × σ))
  | [] => []
  | step :: steps => step.map (fun x => (n, x)) :: Step.numbered (n + step.adds) steps

theorem Step.map_numbered (n : Nat) (steps : List (Step σ)) : (Step.numbered n steps).map (Step.map Prod.snd) = steps := by
  induction steps generalizing n with
  | nil => rfl
  | cons step steps ih =>
    rw [numbered, List.map_cons, ih]
    cases step <;> rfl

/-- with the names of registrations the same is told, each of its registration -/
theorem play_numbered (steps : List (Step σ)) :
    play steps {} = ((play (Step.numbered 0 steps) {}).1.map Prod.snd,
      (play (Step.numbered 0 steps) {}).2.map (Event.map Prod.snd)) := by
  have renamed := play_map Prod.snd {} (Step.numbered 0 steps)
  rw [Step.map_numbered] at renamed
  exact renamed

/-- what is told of one registration, from what is told of all -/
def toldOf (n : Nat) (events : List (Event (Nat × σ))) : List (Event σ) :=
  (events.filter fun e => e.subject.1 = n).map (Event.map Prod.snd)

theorem toldOf_append (n : Nat) (events events' : List (Event (Nat × σ))) :
    toldOf n (events ++ events') = toldOf n events ++ toldOf n events' := by
  rw [toldOf, List.filter_append, List.map_append, toldOf, toldOf]

theorem toldOf_own {n : Nat} {events : List (Event (Nat × σ))} (own : ∀ e ∈ events, e.subject.1 = n) :
    toldOf n events = events.map (Event.map Prod.snd) := by
  rw [toldOf, List.filter_eq_self.2 fun e there => decide_eq_true (own e there)]

theorem toldOf_other {n : Nat} {events : List (Event (Nat × σ))} (other : ∀ e ∈ events, e.subject.1 ≠ n) :
    toldOf n events = [] := by
  rw [toldOf, List.filter_eq_nil_iff.2 fun e there => by simpa using other e there, List.map_nil]

/-! ## How many are registered -/

theorem length_serve (s : Schedule σ) (limit : Nat) : (s.serve limit).1.loops.length = s.loops.length := by
  have perm : ((s.serve limit).1.loops.map (·.number)).Perm (s.loops.map (·.number)) :=
    settle_map (fun l now due => (Loop.act_acts due).same.1) _ _
  have length := perm.length_eq
  rwa [List.length_map, List.length_map] at length

theorem length_act (step : Step σ) (s : Schedule σ) : (act step s).1.loops.length = s.loops.length + step.adds := by
  cases step with
  | register k job => rw [act, register, List.length_append, List.length_singleton, Step.adds]
  | sleep millis => exact length_serve s _
  | shutdown k =>
    have stopped : (s.stop k).loops.length = s.loops.length := by rw [stop, List.length_map]
    cases wait : mustWait (s.own k) with
    | false =>
      rw [act, shutdown_at_once wait]
      exact stopped
    | true =>
      rw [act, shutdown_waits wait]
      exact (length_serve _ _).trans stopped

theorem length_le_play (steps : List (Step σ)) (s : Schedule σ) : s.loops.length ≤ (play steps s).1.loops.length := by
  induction steps generalizing s with
  | nil => exact Nat.le_refl _
  | cons step steps ih => exact Nat.le_trans (Nat.le_of_add_right_le (Nat.le_of_eq (length_act step s).symm)) (ih _)

/-- registrations go on to be numbered where they left off -/
theorem play_numbered_append {n : Nat} {s : Schedule (Nat × σ)} (count : s.loops.length = n)
    (steps later : List (Step σ)) :
    let t := (play (Step.numbered n steps) s).1
    play (Step.numbered n (steps ++ later)) s =
      ((play (Step.numbered t.loops.length later) t).1,
        (play (Step.numbered n steps) s).2 ++ (play (Step.numbered t.loops.length later) t).2) := by
  induction steps generalizing n s with
  | nil =>
    subst count
    rfl
  | cons step steps ih =>
    have next := ih (s := (act (step.map fun x => (n, x)) s).1) (n := n + step.adds)
      (by rw [length_act, Step.adds_map, count])
    rw [List.cons_append, Step.numbered, Step.numbered, play, play, next]
    dsimp only
    rw [List.append_assoc]

/-! ## What is told of every loop -/

section Traced

variable {P : Loop σ → List (Event σ) → Prop} {limit : Nat}

/-- what holds of each loop, its registration's name apart, and of all that was told of it -/
structure Traced (P : Loop σ → List (Event σ) → Prop) (s : Schedule (Nat × σ)) (told : List (Event (Nat × σ))) :
    Prop where
  fit : s.Fit
  named : ∀ l ∈ s.loops, l.job.subject.1 = l.number
  known : ∀ e ∈ told, e.subject.1 < s.loops.length
  holds : ∀ l ∈ s.loops, P (l.map Prod.snd) (toldOf l.number told)

theorem Fit.number_lt {s : Schedule σ} (fit : s.Fit) {l : Loop σ} (there : l ∈ s.loops) : l.number < s.loops.length :=
  List.mem_range.1 (fit.numbers.mem_iff.1 (List.mem_map_of_mem there))

theorem Traced.new : Traced P {} [] := ⟨.new, nofun, nofun, nofun⟩

/-- one act of a loop is told of this loop only -/
theorem settle_traces (acts : ∀ l told now, P l told → l.due = some now → P (l.act now).1 (told ++ (l.act now).2))
    (fuel : Nat) {loops : List (Loop (Nat × σ))} {done : List (Event (Nat × σ))}
    (distinct : (loops.map (·.number)).Nodup) (named : ∀ l ∈ loops, l.job.subject.1 = l.number)
    (holds : ∀ l ∈ loops, P (l.map Prod.snd) (toldOf l.number done.reverse)) :
    ∀ l ∈ (settle limit fuel loops done).1,
      P (l.map Prod.snd) (toldOf l.number (settle limit fuel loops done).2.reverse) := by
  induction fuel generalizing loops done with
  | zero => exact holds
  | succ fuel ih =>
    rw [settle]
    cases next : nextDue loops limit with
    | none => exact holds
    | some now =>
      obtain ⟨_, there⟩ := nextDue_some next
      obtain ⟨l, rest, perm, due, acted, events⟩ := actFirst_perm there
      have mine := perm.mem_iff.2 (List.mem_cons_self (a := l) (l := rest))
      have others (l' : Loop (Nat × σ)) (there' : l' ∈ rest) : l' ∈ loops := perm.mem_iff.2 (List.mem_cons_of_mem l there')
      obtain ⟨number, _, job, _⟩ := (Loop.act_acts due).same
      have told (e : Event (Nat × σ)) (there : e ∈ (l.act now).2) : e.subject.1 = l.number := by
        rw [(Loop.act_acts due).subject e there, named l mine]
      have apart := (perm.map (·.number)).nodup_iff.1 distinct
      rw [List.map_cons, List.nodup_cons] at apart
      refine ih ?_ ?_ ?_
      · rw [(acted.map (·.number)).nodup_iff, List.map_cons, number, List.nodup_cons]
        exact apart
      · intro l' there'
        rcases List.mem_cons.1 (acted.mem_iff.1 there') with rfl | there'
        · rw [job, number, named l mine]
        · exact named l' (others l' there')
      · intro l' there'
        rw [List.reverse_append, List.reverse_reverse, toldOf_append, events]
        rcases List.mem_cons.1 (acted.mem_iff.1 there') with rfl | there'
        · have taken := acts (l.map Prod.snd) _ now (holds l mine) due
          rw [Loop.act_map] at taken
          rw [number, toldOf_own told]
          exact taken
        · have other : l.number ≠ l'.number := fun same => apart.1 (same ▸ List.mem_map_of_mem there')
          rw [toldOf_other fun e there => (told e there).trans_ne other, List.append_nil]
          exact holds l' (others l' there')

variable {s : Schedule (Nat × σ)} {told : List (Event (Nat × σ))}

theorem Traced.serve (traced : Traced P s told)
    (acts : ∀ l told now, P l told → l.due = some now → P (l.act now).1 (told ++ (l.act now).2)) {later : Nat}
    (on : s.now < limit ∨ later = s.now) :
    Traced P { (s.serve limit).1 with now := later } (told ++ (s.serve limit).2) := by
  have forall_named : (∀ l ∈ (s.serve limit).1.loops, l.job.subject.1 = l.number ∧ l.number < s.loops.length) ∧
      ∀ e ∈ (s.serve limit).2, e.subject.1 < s.loops.length := serve_forall
    (fun l now h due _ => by
      have acted := Loop.act_acts due
      obtain ⟨number, _, job, _⟩ := acted.same
      rw [number, job]
      exact ⟨h, fun e there => by rw [acted.subject e there, h.1]; exact h.2⟩)
    fun l there => ⟨traced.named l there, traced.fit.number_lt there⟩
  refine ⟨traced.fit.serve on, fun l there => (forall_named.1 l there).1, fun e there => ?_, fun l there => ?_⟩
  · rw [length_serve]
    exact (List.mem_append.1 there).elim (traced.known e) (forall_named.2 e)
  · -- what was told before stands in front of all that is told while the schedule is served
    let fuel := s.loops.foldr (fun l n => l.bound limit + n) 1
    have settled : ∀ l ∈ (settle limit fuel s.loops []).1,
        P (l.map Prod.snd) (toldOf l.number told ++ toldOf l.number (settle limit fuel s.loops []).2.reverse) :=
      settle_traces (P := fun l events => P l (toldOf l.number told ++ events)) (fun l events now h due => by
        rw [(Loop.act_acts due).same.1, ← List.append_assoc]
        exact acts l _ now h due) fuel
      (traced.fit.numbers.nodup_iff.2 List.nodup_range) traced.named
      fun l there => (List.append_nil _).symm ▸ traced.holds l there
    rw [toldOf_append]
    exact settled l there

theorem Traced.stop (traced : Traced P s told) (k : Nat)
    (stops : ∀ l told now, l.scheduler = k → P l told → P (l.stop now) told) : Traced P (s.stop k) told where
  fit := traced.fit.stop k
  named l there := by
    obtain ⟨l₀, before, rfl⟩ := mem_stop there
    split_ifs
    · obtain ⟨number, _, job, _⟩ := l₀.stop_same s.now
      rw [number, job]
      exact traced.named l₀ before
    · exact traced.named l₀ before
  known e there := by
    rw [Schedule.stop, List.length_map]
    exact traced.known e there
  holds l there := by
    obtain ⟨l₀, before, rfl⟩ := mem_stop there
    split_ifs with own
    · rw [(l₀.stop_same s.now).1, ← Loop.stop_map]
      exact stops _ _ _ own (traced.holds l₀ before)
    · exact traced.holds l₀ before

/-- a registration of which nothing was told yet -/
theorem Traced.register {Q : Loop σ → List (Event σ) → Prop} (traced : Traced P s told) (k : Nat) (job : Job σ)
    (others : ∀ l told, l.number < s.loops.length → P l told → Q l told)
    (starts : Q (.start s.loops.length k s.now job) []) :
    Traced Q (s.register k (job.map fun x => (s.loops.length, x))) told where
  fit := traced.fit.register k _
  named l there := by
    rcases List.mem_append.1 there with there | there
    · exact traced.named l there
    · rw [List.mem_singleton.1 there]
      rfl
  known e there := by
    rw [Schedule.register, List.length_append]
    exact Nat.lt_add_right 1 (traced.known e there)
  holds l there := by
    rcases List.mem_append.1 there with there | there
    · exact others _ _ (traced.fit.number_lt there) (traced.holds l there)
    · rw [List.mem_singleton.1 there]
      have silent : toldOf s.loops.length told = [] := toldOf_other fun e there => Nat.ne_of_lt (traced.known e there)
      exact silent ▸ starts

theorem Traced.act (traced : Traced P s told) (step : Step σ)
    (acts : ∀ l told now, P l told → l.due = some now → P (l.act now).1 (told ++ (l.act now).2))
    (starts : ∀ k now job, step = .register k job → P (.start s.loops.length k now job) [])
    (stops : ∀ l told now, step = .shutdown l.scheduler → P l told → P (l.stop now) told) :
    Traced P (act (step.map fun x => (s.loops.length, x)) s).1
      (told ++ (Schedule.act (step.map fun x => (s.loops.length, x)) s).2) := by
  cases step with
  | register k job =>
    rw [Step.map, Schedule.act, List.append_nil]
    exact traced.register k job (fun _ _ _ h => h) (starts k s.now job rfl)
  | sleep millis => exact traced.serve acts (by omega)
  | shutdown k =>
    have stopped := traced.stop k fun l told now own => stops l told now (own ▸ rfl)
    cases wait : mustWait (s.own k) with
    | false =>
      rw [Step.map, Schedule.act, shutdown_at_once wait, List.append_nil]
      exact stopped
    | true =>
      rw [Step.map, Schedule.act, shutdown_waits wait]
      exact stopped.serve acts (.inl (Nat.lt_succ_of_le (le_awaited ..)))

/-- **What stays true of a loop and of all that was told of it**, when the loop acts, does so in any steps. -/
theorem Traced.play (traced : Traced P s told) (steps : List (Step σ))
    (acts : ∀ l told now, P l told → l.due = some now → P (l.act now).1 (told ++ (l.act now).2))
    (starts : ∀ n k now job, s.loops.length ≤ n → .register k job ∈ steps → P (.start n k now job) [])
    (stops : ∀ l told now, .shutdown l.scheduler ∈ steps → P l told → P (l.stop now) told) :
    Traced P (play (Step.numbered s.loops.length steps) s).1
      (told ++ (Schedule.play (Step.numbered s.loops.length steps) s).2) := by
  induction steps generalizing s told with
  | nil =>
    rw [Step.numbered, Schedule.play, List.append_nil]
    exact traced
  | cons step steps ih =>
    have acted := traced.act step acts
      (fun k now job same => starts _ k now job (Nat.le_refl _) (same ▸ List.mem_cons_self))
      fun l told now same => stops l told now (same ▸ List.mem_cons_self)
    have grown := length_act (step.map fun x => (s.loops.length, x)) s
    rw [Step.adds_map] at grown
    have played := ih acted
      (fun n k now job le there => starts n k now job (by omega) (List.mem_cons_of_mem _ there))
      fun l told now there => stops l told now (List.mem_cons_of_mem _ there)
    rw [grown, List.append_assoc] at played
    exact played

end Traced

end Schedule

end RowFiles
