/-
Periodic work under virtual time. Each registered job has a loop with a ticker: the first tick is due one interval after
registration, each tick starts a run, and no tick is taken while a run is under way. A tick that is taken more than
5 ms late sets the next one an interval from now; otherwise the next is due an interval after the last was. Ticks fire
at whole milliseconds, at the first one not before they are due. No wait is longer than `longestWait`, the one for the
first tick apart. Loops that are due in the same millisecond are served in the order in which they began to wait, and a
loop that is due again at once goes on before the others.

A run may end with an error, which is told and changes nothing else. A run may crash, which ends its loop for good; so
does an interval of zero or one too long to add to a time.

Shutting a scheduler down ends its idle loops at once and its running ones when their run is over. A loop that is told
to stop while a tick is due may do either first: it takes as many such ticks as its job has `overtime`, one after
another, and then it stops. The shutdown waits for the loops in the order of registration, up to the first that crashes,
if any.

Deadlines are in nanoseconds and all other times in milliseconds. Time moves only by `sleep` and `shutdown`, which yield
what happened on the way. A sleep that ends is noticed before the loops are served that are due at the same time; they
are served when time is next to move, or when a shutdown is waited for.
-/
import RowFiles.Duration

namespace RowFiles

/-! ## Tickers -/

/-- nanoseconds per millisecond -/
def nanosPerMilli : Nat := 1000000

/-- how many milliseconds late a tick may be taken and still keep the schedule -/
def tickTolerance : Nat := 5

/-- the longest wait, in milliseconds: thirty years of 365 days; longer ones are cut short -/
def longestWait : Nat := 30 * 365 * 86400 * 1000

structure Ticker where
  /-- from a tick to the next, in nanoseconds -/
  interval : Nat
  /-- when the next tick is due, in nanoseconds -/
  deadline : Nat
  /-- how many ticks were taken -/
  runs : Nat := 0
  /-- when the loop last became free to take a tick -/
  free : Nat
deriving DecidableEq, Repr

namespace Ticker

def start (now interval : Nat) : Ticker :=
  { interval := min interval (longestWait * nanosPerMilli)
    deadline := now * nanosPerMilli + interval
    free := now }

/-- when the next tick is taken -/
def fires (t : Ticker) : Nat := max t.free ((t.deadline + nanosPerMilli - 1) / nanosPerMilli)

/-- after taking a tick -/
def tick (t : Ticker) (now : Nat) : Ticker :=
  { t with
    runs := t.runs + 1
    deadline :=
      if t.deadline + tickTolerance * nanosPerMilli < now * nanosPerMilli then now * nanosPerMilli + t.interval
      else t.deadline + t.interval }

/-- after the run that the last tick started is over -/
def release (t : Ticker) (now : Nat) : Ticker := { t with free := now }

end Ticker

/-! ## Jobs -/

/-- how long the runs of a job take -/
inductive Lengths where
  | every (millis : Nat)
  /-- one by one, and no time beyond the list -/
  | each (millis : List Nat)
deriving DecidableEq, Repr

def Lengths.of (l : Lengths) (run : Nat) : Nat :=
  match l with
  | .every n => n
  | .each ns => ns.getD (run - 1) 0

/-- periodic work; `σ` names what it works on -/
structure Job (σ : Type) where
  subject : σ
  interval : Duration
  takes : Lengths := .every 0
  /-- the run that crashes -/
  crashesIn : Option Nat := none
  /-- how long that run has taken when it crashes, in milliseconds -/
  crashesAfter : Nat := 0
  /-- whether a run ends with an error, if it does not crash -/
  fails : Nat → Bool := fun _ => false
  /-- how many ticks that are due are still taken when the loop has been told to stop -/
  overtime : Nat := 0

namespace Job

variable {σ : Type}

/-- whether a run crashes -/
def crashes (j : Job σ) (run : Nat) : Bool := j.crashesIn = some run

/-- how long a run takes, in milliseconds -/
def length (j : Job σ) (run : Nat) : Nat := if j.crashes run then j.crashesAfter else j.takes.of run

end Job

/-! ## Loops -/

inductive Phase where
  /-- registered and not served yet -/
  | fresh
  /-- waiting for a tick -/
  | idle
  /-- in a run that ends at a time -/
  | busy (ends : Nat)
  /-- ended by a shutdown -/
  | ended
  | crashed
deriving DecidableEq, Repr

/-- one registered job -/
structure Loop (σ : Type) where
  /-- how many were registered before -/
  number : Nat
  scheduler : Nat
  job : Job σ
  ticker : Ticker
  phase : Phase
  /-- its scheduler has been shut down -/
  stopping : Bool := false
  /-- the last run that it starts then, if the ticks are due -/
  lastRun : Nat := 0

/-- what happens in the runs of jobs, and when -/
inductive Event (σ : Type) where
  | started (time : Nat) (subject : σ) (run : Nat)
  | finished (time : Nat) (subject : σ) (run : Nat)
  /-- the run that has just finished ended with an error -/
  | failed (time : Nat) (subject : σ) (run : Nat)
deriving DecidableEq, Repr

/-- what is told of a run that is over without having crashed -/
def Job.over {σ : Type} (j : Job σ) (now run : Nat) : List (Event σ) :=
  .finished now j.subject run :: if j.fails run then [.failed now j.subject run] else []

namespace Loop

variable {σ : Type}

/-- how many seconds have been counted when a schedule starts -/
def secondsBefore : Nat := 86400

/-- times are counted in seconds up to this number -/
def endOfTime : Nat := UInt64.size / 2

/-- an interval that is not empty and that can be added to the present time -/
def usable (now : Nat) (d : Duration) : Bool :=
  0 < d.nanoseconds &&
    (now + secondsBefore * 1000) * nanosPerMilli + d.nanoseconds < endOfTime * 1000 * nanosPerMilli

def start (number scheduler now : Nat) (job : Job σ) : Loop σ where
  number := number
  scheduler := scheduler
  job := job
  ticker := .start now job.interval.nanoseconds
  phase := .fresh

/-- when something next happens in a loop, if ever -/
def due (l : Loop σ) : Option Nat :=
  match l.phase with
  | .fresh => some l.ticker.free
  | .idle => some l.ticker.fires
  | .busy ends => some ends
  | .ended | .crashed => none

/-- a loop without a run: it waits for its next tick, or ends if it is told to stop, unless the tick is due and it takes
that first -/
def rest (l : Loop σ) (now : Nat) : Loop σ :=
  { l with phase := if l.stopping ∧ ¬ (l.ticker.runs < l.lastRun ∧ l.ticker.fires ≤ now) then .ended else .idle }

/-- the run that the last tick started is over: it has crashed, or it has finished, with an error or without, and the
loop goes on -/
def finish (l : Loop σ) (now : Nat) : Loop σ × List (Event σ) :=
  if l.job.crashes l.ticker.runs then ({ l with phase := .crashed }, [])
  else ({ l with ticker := l.ticker.release now }.rest now, l.job.over now l.ticker.runs)

/-- what happens in a loop at the time it is due -/
def act (l : Loop σ) (now : Nat) : Loop σ × List (Event σ) :=
  match l.phase with
  | .fresh => (if usable now l.job.interval then l.rest now else { l with phase := .crashed }, [])
  | .idle =>
    let l := { l with ticker := l.ticker.tick now }
    let started := Event.started now l.job.subject l.ticker.runs
    match l.job.length l.ticker.runs with
    | 0 =>
      let (l, events) := l.finish now
      (l, started :: events)
    | n + 1 => ({ l with phase := .busy (now + (n + 1)) }, [started])
  | .busy _ => l.finish now
  | .ended | .crashed => (l, [])

/-- told to stop: at once if idle, after its run if there is one -/
def stop (l : Loop σ) (now : Nat) : Loop σ :=
  let l := { l with stopping := true, lastRun := l.ticker.runs + l.job.overtime }
  if l.phase = .idle then l.rest now else l

/-- a loop that is left to itself, after so many of the things that happen in it or when it is over; and the time of the
last of them, or `ends` if that is later -/
def alone : Nat → Nat → Loop σ → Nat × Loop σ
  | 0, ends, l => (ends, l)
  | n + 1, ends, l =>
    match l.due with
    | none => (ends, l)
    | some now => alone n (max ends now) (l.act now).1

/-- a loop that is told to stop, when it is over; and when that is, or `ends` if that is later. With each tick that it
still takes, a run begins and ends. -/
def last (l : Loop σ) (now ends : Nat) : Nat × Loop σ := (l.stop now).alone (2 * l.job.overtime + 1) ends

/-- at most how often something happens in a loop before a time -/
def bound (l : Loop σ) (limit : Nat) : Nat :=
  2 * ((limit * nanosPerMilli - l.ticker.deadline) / l.ticker.interval + 2) + 1

end Loop

/-! ## Schedules -/

structure Schedule (σ : Type) where
  now : Nat := 0
  /-- in the order in which they began to wait for what they wait for now -/
  loops : List (Loop σ) := []

namespace Schedule

variable {σ : Type}

def register (s : Schedule σ) (scheduler : Nat) (job : Job σ) : Schedule σ :=
  { s with loops := s.loops ++ [.start s.loops.length scheduler s.now job] }

/-- the earliest time before `limit` at which something is due -/
def nextDue (loops : List (Loop σ)) (limit : Nat) : Option Nat :=
  loops.foldl (fun t l =>
    match t, l.due with
    | some t, some d => some (min t d)
    | none, some d => if d < limit then some d else none
    | t, none => t) none

/-- lets the first loop that is due at a time act; it then waits behind the others, unless it is due at once -/
def actFirst (now : Nat) : List (Loop σ) → List (Loop σ) × List (Event σ)
  | [] => ([], [])
  | l :: ls =>
    if l.due = some now then
      let (l, events) := l.act now
      (if l.due = some now then l :: ls else ls ++ [l], events)
    else
      let (ls, events) := actFirst now ls
      (l :: ls, events)

/-- lets what is due before a time happen, in order of time and then of how long it was waited for; `done` is what has
happened, latest first -/
def settle (limit : Nat) : Nat → List (Loop σ) → List (Event σ) → List (Loop σ) × List (Event σ)
  | 0, loops, done => (loops, done)
  | fuel + 1, loops, done =>
    match nextDue loops limit with
    | none => (loops, done)
    | some now =>
      let (loops, events) := actFirst now loops
      settle limit fuel loops (events.reverse ++ done)

/-- serves the loops that are due before `limit` -/
def serve (s : Schedule σ) (limit : Nat) : Schedule σ × List (Event σ) :=
  let (loops, events) := settle limit (s.loops.foldr (fun l n => l.bound limit + n) 1) s.loops []
  ({ s with loops := loops }, events.reverse)

/-- moves time on; what is due at the time that the sleep ends is left for later -/
def sleep (s : Schedule σ) (millis : Nat) : Schedule σ × List (Event σ) :=
  let wake := s.now + min millis longestWait
  let (s, events) := s.serve wake
  ({ s with now := wake }, events)

/-- tells the loops of a scheduler to stop -/
def stop (s : Schedule σ) (scheduler : Nat) : Schedule σ :=
  { s with loops := s.loops.map fun l => if l.scheduler = scheduler then l.stop s.now else l }

/-- when the last of some loops that are told to stop is over, taken in turn up to the first that crashes, and whether none
of them does; those before are over at `ends` -/
def awaited (now ends : Nat) : List (Loop σ) → Nat × Bool
  | [] => (ends, true)
  | l :: ls =>
    let (ends, l) := l.last now ends
    if l.phase = .crashed then (ends, false) else awaited now ends ls

/-- whether the first of some loops has yet to end -/
def mustWait : List (Loop σ) → Bool
  | [] => false
  | l :: _ => l.phase ≠ .crashed && l.phase ≠ .ended

/-- the loops of a scheduler in the order of registration -/
def own (s : Schedule σ) (scheduler : Nat) : List (Loop σ) :=
  (List.range s.loops.length).filterMap fun n => s.loops.find? fun l => l.number = n && l.scheduler = scheduler

/-- shuts a scheduler down: tells its loops to stop and waits for them. The answer is whether every one of them ended
without crashing. While it is waited for, all that is due is served, up to and at the time that the last one ends. -/
def shutdown (s : Schedule σ) (scheduler : Nat) : Bool × Schedule σ × List (Event σ) :=
  let own := s.own scheduler
  let (ends, clean) := awaited s.now s.now own
  let s := s.stop scheduler
  if mustWait own then
    let (s, events) := s.serve (ends + 1)
    (clean, { s with now := ends }, events)
  else (clean, s, [])

end Schedule

end RowFiles
