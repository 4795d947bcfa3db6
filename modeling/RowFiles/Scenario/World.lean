/-
What a scenario runs in: the objects made so far by name, and the state of everything that was ever made, by slot. An
object whose name is taken over stays where others were built on it.

Generated keys are numbered from one. In texts from outside, `$P1` stands for the first of them, and so on; in texts and
bytes that are shown, each generated key is written as its placeholder. A key is its number after as many letters as its
length leaves room for, so keys are all different as long as there is room for the number. The letters are those of a
seed, which is to be drawn from the texts of the scenario so that none of them is a generated key by chance.
-/
import RowFiles.Files.Directory
import RowFiles.Scenario.Command
import RowFiles.Store.Stack

namespace RowFiles.Scenario

/-! ## Objects -/

/-- how often the runs of a task started and finished, and the latest run -/
structure TickCount where
  started : Nat := 0
  finished : Nat := 0
  lastRun : Nat := 0
deriving Inhabited

/-- what a scheduled job works on -/
inductive Task where
  | ticks (slot : Nat)
  | evictions (cache : Nat) (settings : CacheSettings) (inner : Stack)

/-- a catalog: its store, and where its state is -/
structure CatalogPlace where
  stack : Stack
  slot : Nat

structure WriterPlace where
  stack : Stack
  catalog : CatalogPlace
  key : Key
  slot : Nat

structure ReaderPlace where
  stack : Stack
  key : Key
  length : UInt64
  slot : Nat

structure LockPlace where
  stack : Stack
  catalog : CatalogPlace
  name : Key
  signature : UInt64
  expiry : Option Duration
  slot : Nat

structure DirectoryPlace where
  identity : Nat
  data : Stack
  catalog : CatalogPlace
  settings : DirectorySettings

inductive Object where
  | store (stack : Stack)
  | session (slot : Nat)
  | policy (eviction : Eviction) (slot : Nat)
  | catalog (place : CatalogPlace)
  | writer (place : WriterPlace)
  | closedWriter
  | reader (place : ReaderPlace)
  | lock (place : LockPlace)
  | directory (place : DirectoryPlace)
  | scheduler (number : Nat)
  | ticks (slot : Nat) (job : Job Task)

/-! ## The world -/

structure World where
  objects : Std.ExtTreeMap Name Object compare := ∅
  clock : UInt64 := 0
  /-- what generated keys take their letters from -/
  seed : UInt64 := 0
  /-- the keys generated so far -/
  generated : Array Key := #[]
  /-- how many things were numbered: signatures drawn, directories and schedulers made -/
  numbered : Nat := 0
  tables : Array (Table Column) := #[]
  sessions : Array SessionTable := #[]
  known : Array KnownRows := #[]
  caches : Array CacheState := #[]
  probes : Array (ProbeState (List Command)) := #[]
  policies : Array AccessTimes := #[]
  catalogs : Array CatalogState := #[]
  writers : Array WriterState := #[]
  readers : Array ReaderState := #[]
  locks : Array Bool := #[]
  ticks : Array TickCount := #[]
  schedule : Schedule Task := {}

namespace World

/-- one slot of an array in the world as a part of it -/
def slot {α : Type} (default : α) (get : World → Array α) (set : Array α → World → World) (i : Nat) :
    Part (Run World) α :=
  Run.part (fun w => (get w).getD i default) fun a w => set ((get w).setIfInBounds i a) w

def table : Nat → Part (Run World) (Table Column) := slot .empty tables fun a w => { w with tables := a }

def session : Nat → Part (Run World) SessionTable := slot {} sessions fun a w => { w with sessions := a }

def knownRows : Nat → Part (Run World) KnownRows := slot ∅ known fun a w => { w with known := a }

def cache : Nat → Part (Run World) CacheState := slot {} caches fun a w => { w with caches := a }

def probe : Nat → Part (Run World) (ProbeState (List Command)) := slot {} probes fun a w => { w with probes := a }

def policy : Nat → Part (Run World) AccessTimes := slot ∅ policies fun a w => { w with policies := a }

def catalog : Nat → Part (Run World) CatalogState := slot {} catalogs fun a w => { w with catalogs := a }

def writer : Nat → Part (Run World) WriterState := slot {} writers fun a w => { w with writers := a }

def reader : Nat → Part (Run World) ReaderState := slot {} readers fun a w => { w with readers := a }

def lock : Nat → Part (Run World) Bool := slot false locks fun a w => { w with locks := a }

def tickCount : Nat → Part (Run World) TickCount := slot {} ticks fun a w => { w with ticks := a }

end World

/-! ## Generated keys -/

/-- how many letters a seed has -/
def seedLetters : Nat := 12

/-- a letter of a seed, whose letters come round again and again -/
def seedLetter (seed : UInt64) (i : Nat) : Char :=
  let d := seed.toNat / Nat.pow 52 (i % seedLetters) % 52
  Char.ofNat (if d < 26 then 65 + d else 71 + d)

/-- the `n`-th key of a length: letters of the seed and then the number, as much of it as fits -/
def generatedKey (seed : UInt64) (length n : Nat) : Key :=
  let digits := ((Nat.toDigits 10 n).reverse.take length).reverse
  String.ofList ((List.range (length - digits.length)).map (seedLetter seed) ++ digits)

/-- replaces the first of some patterns wherever one occurs; `skip` items are part of a pattern already replaced, and
`done` is what has been written, last first -/
def substitute {α : Type} [BEq α] (patterns : List (List α × List α)) (skip : Nat) (done : List α) :
    List α → List α
  | [] => done.reverse
  | x :: xs =>
    match skip with
    | k + 1 => substitute patterns k done xs
    | 0 =>
      match patterns.find? fun p => p.1 ≠ [] && p.1.isPrefixOf (x :: xs) with
      | some (pattern, new) => substitute patterns (pattern.length - 1) (new.reverse ++ done) xs
      | none => substitute patterns 0 (x :: done) xs

namespace World

/-- how the `i`-th generated key, from zero, is shown -/
def placeholder (i : Nat) : String := "$P" ++ toString (i + 1)

/-- each generated key with its placeholder -/
def placeholders (w : World) : List (Key × String) :=
  w.generated.toList.zipIdx.map fun p => (p.1, placeholder p.2)

/-- a text with generated keys shown as placeholders -/
def showText (w : World) (s : String) : String :=
  if w.generated.isEmpty then s
  else String.ofList (substitute (w.placeholders.map fun p => (p.1.toList, p.2.toList)) 0 [] s.toList)

/-- bytes with generated keys shown as placeholders -/
def showBytes (w : World) (b : Bytes) : Bytes :=
  if w.generated.isEmpty then b
  else substitute (w.placeholders.map fun p => (Utf8.encode p.1, Utf8.encode p.2)) 0 [] b

/-- what a text from outside means: the placeholders in it stand for the keys generated so far, and a longer one is
looked for before a shorter one that begins it -/
def keyOf (w : World) (s : String) : Key :=
  if w.generated.isEmpty then s
  else String.ofList (substitute (w.placeholders.reverse.map fun p => (p.2.toList, p.1.toList)) 0 [] s.toList)

def bytesOf (w : World) : Payload → Bytes
  | .bytes b => b
  | .text s => Utf8.encode (w.keyOf s)

/-- draws the next key of a length; an empty key is not counted -/
def drawKey (length : Nat) : Run World Key := fun w =>
  if length = 0 then (.ok "", w)
  else
    let key := generatedKey w.seed length (w.generated.size + 1)
    (.ok key, { w with generated := w.generated.push key })

end World

/-! ## Objects at work -/

/-- what stacks run in: slots of the world, its clock and keys, and bulk writes in ascending order -/
def backing (rivals : List Command → Run World Unit) : Backing (Run World) (List Command) where
  table := World.table
  session := World.session
  known := World.knownRows
  cache := World.cache
  probe := World.probe
  rivals := rivals
  now := fun w => (.ok w.clock, w)
  freshKey := World.drawKey
  order := pure
  orderKeys := pure

section

variable (b : Backing (Run World) (List Command))

def CatalogPlace.catalog (p : CatalogPlace) : Catalog (Run World) :=
  ⟨(p.stack.store b).toRows, World.catalog p.slot, b.orderKeys⟩

def WriterPlace.writer (p : WriterPlace) : Writer (Run World) :=
  ⟨(p.stack.store b).toRows, p.catalog.catalog b, p.key, World.writer p.slot, b.order⟩

def ReaderPlace.reader (p : ReaderPlace) : Reader (Run World) :=
  ⟨(p.stack.store b).toRows, p.key, p.length, World.reader p.slot⟩

def LockPlace.lock (p : LockPlace) : Lock (Run World) :=
  .ofStore (p.stack.store b) (p.catalog.catalog b) p.expiry b.now p.name p.signature (World.lock p.slot)

def DirectoryPlace.directory (p : DirectoryPlace) : Directory (Run World) :=
  ⟨p.identity, p.data.store b, p.catalog.catalog b, p.settings, b.now, b.order⟩

/-- what a task's run does to the world when it starts or finishes; that it failed is not seen -/
def happen : Event Task → Run World Unit
  | .started _ (.ticks slot) run =>
    (World.tickCount slot).modify fun t => { t with started := t.started + 1, lastRun := run }
  | .finished _ (.ticks slot) _ => (World.tickCount slot).modify fun t => { t with finished := t.finished + 1 }
  | .started _ (.evictions cache settings inner) _ => do
    let _ ← (b.cacheOver cache settings (inner.store b).toRows).runEvictions
  | .finished _ (.evictions ..) _ => pure ()
  | .failed .. => pure ()

end

end RowFiles.Scenario
