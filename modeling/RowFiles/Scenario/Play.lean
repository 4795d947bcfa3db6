/-
Carrying out the steps of a scenario. A step looks its objects up first, so one that is refused has changed nothing.

The rules of a probe may carry out steps of their own in the middle of a call, whose probes may have rules in turn;
`depth` bounds how far that goes.
-/
import RowFiles.Scenario.Reply

namespace RowFiles.Scenario

/-- the carrying out of a step -/
abbrev Play := ExceptT Halt (StateM World)

namespace Play

/-- a run of the library, whose errors are answered as they are -/
def run {α : Type} (x : Run World α) : Play α := fun w =>
  match x w with
  | (.ok a, w) => (.ok a, w)
  | (.error e, w) => (.error (.failed e), w)

/-- a run behind a byte stream, whose errors are answered as the stream shows them -/
def stream {α : Type} (x : Run World α) : Play α := fun w =>
  match x w with
  | (.ok a, w) => (.ok a, w)
  | (.error .tooLarge, w) => (.error (.failed .tooLarge), w)
  | (.error e, w) => (.error (.streamFailed e.toStream), w)

def refuse {α : Type} : Play α := throw .refused

/-! ## Objects by name -/

def object (id : Name) : Play Object := do
  match (← get).objects[id]? with
  | some o => pure o
  | none => refuse

def stack (id : Name) : Play Stack := do
  match ← object id with
  | .store s => pure s
  | _ => refuse

def catalog (id : Name) : Play CatalogPlace := do
  match ← object id with
  | .catalog p => pure p
  | _ => refuse

def directory (id : Name) : Play DirectoryPlace := do
  match ← object id with
  | .directory p => pure p
  | _ => refuse

def key (s : String) : Play Key := do return (← get).keyOf s

def bytes (p : Payload) : Play Bytes := do return (← get).bytesOf p

/-- a number never given before -/
def number : Play Nat := modifyGet fun w => (w.numbered, { w with numbered := w.numbered + 1 })

/-- makes an object known under a name. A scheduler that had the name is told to stop. -/
def bind (id : Name) (o : Object) : Play Unit := do
  let old := (← get).objects[id]?
  if let some (.scheduler n) := old then
    modify fun w => { w with schedule := w.schedule.stop n }
  modify fun w => { w with objects := w.objects.insert id o }

/-! ## New state -/

def newTable : Play Nat := modifyGet fun w => (w.tables.size, { w with tables := w.tables.push .empty })

def newSession (narrow : Bool) : Play Nat :=
  modifyGet fun w => (w.sessions.size, { w with sessions := w.sessions.push { narrow := narrow } })

def newKnown : Play Nat := modifyGet fun w => (w.known.size, { w with known := w.known.push ∅ })

def newCache : Play Nat := modifyGet fun w => (w.caches.size, { w with caches := w.caches.push {} })

def newProbe : Play Nat := modifyGet fun w => (w.probes.size, { w with probes := w.probes.push {} })

def newPolicy : Play Nat := modifyGet fun w => (w.policies.size, { w with policies := w.policies.push ∅ })

def newCatalog : Play Nat := modifyGet fun w => (w.catalogs.size, { w with catalogs := w.catalogs.push {} })

def newWriter (s : WriterState) : Play Nat :=
  modifyGet fun w => (w.writers.size, { w with writers := w.writers.push s })

def newReader : Play Nat := modifyGet fun w => (w.readers.size, { w with readers := w.readers.push {} })

def newLock : Play Nat := modifyGet fun w => (w.locks.size, { w with locks := w.locks.push false })

def newTicks : Play Nat := modifyGet fun w => (w.ticks.size, { w with ticks := w.ticks.push {} })

/-- draws a signature, above all small ones -/
def drawSignature : Play UInt64 := do return UInt64.ofNat (UInt64.size / 2 + (← number))

section

variable (b : Backing (Run World) (List Command))

/-! ## Making -/

/-- the lengths of runs that sleep so long -/
def slept : Lengths → Lengths
  | .every millis => .every (min longestWait millis)
  | .each millis => .each (millis.map (min longestWait))

def make : Making → Play Object
  | .memory width => return .store (.memory (← newTable) width)
  | .sharded inner settings => do
    let inner ← stack inner
    match settings.validate with
    | .error e => throw (.failed e)
    | .ok () => return .store (.sharded settings inner)
  | .cached inner settings => do
    let inner ← stack inner
    return .store (.cached (← newCache) settings inner)
  | .linked links inner => do
    let links ← stack links
    let inner ← stack inner
    return .store (.linked links inner)
  | .session narrow => return .session (← newSession narrow)
  | .wide session settings => do
    match ← object session with
    | .session slot => return .store (.wide (← newKnown) slot settings)
    | _ => refuse
  | .wideLike other space => do
    match ← stack other with
    | .wide _ slot settings => return .store (.wide (← newKnown) slot { settings with space := space })
    | _ => refuse
  | .probe inner => do
    let inner ← stack inner
    return .store (.probed (← newProbe) inner)
  | .policy eviction => return .policy eviction (← newPolicy)
  | .catalog store => do
    let s ← stack store
    return .catalog ⟨s, ← newCatalog⟩
  | .writer store names k => do
    let s ← stack store
    let c ← catalog names
    let k ← key k
    let state ← run (Writer.start (s.store b).toRows (c.catalog b) k)
    return .writer ⟨s, c, k, ← newWriter state⟩
  | .fileWriter dir k => do
    let d ← directory dir
    let k ← key k
    let state ← run ((d.directory b).startWriter k)
    return .writer ⟨d.data, d.catalog, k, ← newWriter state⟩
  | .reader store k length => do
    let s ← stack store
    return .reader ⟨s, ← key k, length, ← newReader⟩
  | .fileReader dir k => do
    let d ← directory dir
    let k ← key k
    let length ← run ((d.directory b).length k)
    return .reader ⟨d.data, k, length, ← newReader⟩
  | .lock store names k signature expiry => do
    let s ← stack store
    let c ← catalog names
    return .lock ⟨s, c, ← key k, signature, expiry, ← newLock⟩
  | .fileLock dir k => do
    let d ← directory dir
    return .lock ⟨d.data, d.catalog, ← key k, ← drawSignature, d.settings.lock.tryingExpiry, ← newLock⟩
  | .directory data names settings => do
    let data ← stack data
    let c ← stack names
    return .directory ⟨← number, data, ⟨c, ← newCatalog⟩, settings⟩
  | .scheduler => return .scheduler (← number)
  | .ticks interval takes crashesIn fails => do
    let slot ← newTicks
    return .ticks slot
      { subject := .ticks slot, interval := interval, takes := slept takes, crashesIn := crashesIn,
        fails := fun _ => fails }

/-! ## Steps on stores -/

def call (s : Stack) (c : Call) : Play Reply := do
  match ← run ((s.store b).call c) with
  | .done => return .nothing
  | .cell v => return .cell v
  | .flag yes => return .flag yes
  | .values vs => return .cells vs
  | .keys ks => return .keySet ks

/-- something done with the links of a store, if it has links -/
def linked (s : Stack) (f : Linker (Run World) → Play Reply) : Play Reply :=
  match (s.store b).linker with
  | some l => f l
  | none => return .text "no linker"

def storeStep (s : Stack) : StoreStep → Play Reply
  | .put k c v => do call b s (.put (← key k) c (← bytes v))
  | .get k c => do call b s (.get (← key k) c)
  | .delete k => do call b s (.delete (← key k))
  | .deleteColumn k c => do call b s (.deleteColumn (← key k) c)
  | .hasKey k => do call b s (.hasKey (← key k))
  | .values k => do call b s (.values (← key k))
  | .keys => call b s .keys
  | .width => return .number (s.store b).width
  | .sync => call b s .sync
  | .abilities =>
    return .fields [("linker", .flag (s.store b).linker.isSome), ("uncached", .flag (s.store b).uncached.isSome)]
  | .resolve k => linked b s fun l => do
    let physical ← run (l.resolve (← key k))
    return .fields [("physical", .text physical), ("len", .number physical.utf8ByteSize)]
  | .link k physical => linked b s fun l => do
    run (l.link (← key k) (← key physical))
    return .nothing
  | .unlink k => linked b s fun l => do
    run (l.unlink (← key k))
    return .nothing
  | .shardKey k c => do
    match s with
    | .sharded settings _ => return .text (settings.shardKey (← key k) c)
    | _ => refuse
  | .space => do
    match s with
    | .wide _ _ settings => return .text settings.space
    | _ => refuse

def memoryStep (s : Stack) (step : MemoryStep) : Play Reply := do
  match s with
  | .memory slot _ =>
    let t := (← get).tables.getD slot .empty
    match step with
    | .size => return .list [.number t.size, .flag (t.size = 0)]
    | .columns k => return .list ((t.walkColumns (← key k)).map fun c => .number c.toNat)
  | _ => refuse

def cacheStep (s : Stack) (step : CacheStep) : Play Reply := do
  match s with
  | .cached slot settings inner =>
    let c := b.cacheOver slot settings (inner.store b).toRows
    let now := (← get).caches.getD slot {}
    let isCached (k : Key) (col : Column) : Bool := (now.value? ⟨k, col⟩).isSome
    match step with
    | .flush empty => do run (c.flush empty); return .nothing
    | .evict => return .number (← run c.runEvictions)
    | .size => return .number now.table.size
    | .isCached k col => return .flag (isCached (← key k) col)
    | .isMarked k col => return .flag (now.isMarked ⟨← key k, col⟩)
    | .cell k col => do
      let k ← key k
      return .list [.flag (isCached k col), .flag (now.isMarked ⟨k, col⟩)]
    | .settings => return .document settings.toDocument
    | .runTask => do
      let _ ← run c.runEvictions
      let every := settings.evictionInterval
      return .fields [("name", .text "cache_eviction"), ("secs", .number every.seconds.toNat),
        ("nanos", .number every.nanos.val)]
  | _ => refuse

/-! ## Steps on other objects -/

def sessionStep (slot : Nat) : SessionStep → Play Reply
  | .down reason => do
    run ((World.session slot).modify fun s => { s with down := reason })
    return .nothing
  | .stats => return sessionStats ((← get).sessions.getD slot {})
  | .put k c v => do
    let k ← key k
    let v ← bytes v
    run ((World.session slot).modify fun s => { s with table := s.table.put k c v })
    return .nothing
  | .deleteRow k => do
    let k ← key k
    run ((World.session slot).modify fun s => { s with table := s.table.delete k })
    return .nothing

def policyStep (e : Eviction) (slot : Nat) (step : PolicyStep) : Play Reply := do
  let now := (← get).clock
  match step with
  | .noteGet k c => do
    let a := ⟨← key k, c⟩
    run ((World.policy slot).modify (e.noteGet now a))
    return .nothing
  | .notePut k c => do
    let a := ⟨← key k, c⟩
    run ((World.policy slot).modify (e.notePut now a))
    return .nothing
  | .shouldEvict k c => return .flag (e.shouldEvict now ⟨← key k, c⟩ ((← get).policies.getD slot ∅))
  | .remove k c => do
    let a : Address Column := ⟨← key k, c⟩
    run ((World.policy slot).modify (·.erase a))
    return .nothing

def clockStep (step : ClockStep) : Play Reply := do
  match step with
  | .set time => modify fun w => { w with clock := time }
  | .advance millis => modify fun w => { w with clock := w.clock + millis }
  | .now => pure ()
  return .number (← get).clock.toNat

def catalogStep (c : Catalog (Run World)) : CatalogStep → Play Reply
  | .length k => do return .number (← run (c.length (← key k))).toNat
  | .has k => do return .flag (← run (c.has (← key k)))
  | .delete k => do run (c.delete (← key k)); return .nothing
  | .setLength k n commit => do run (c.setLength (← key k) n commit); return .nothing
  | .flush clear => do run (c.flush clear); return .nothing
  | .keys => do return .keyList (← run c.keys)

def writerState (p : WriterPlace) : Play Reply := do return p.reply ((← get).writers.getD p.slot {})

/-- a step on a writer, which is lost where something is too large for it -/
def orLose (id : Name) (step : Play Reply) : Play Reply :=
  tryCatch step fun
    | .failed .tooLarge => do
      bind id .closedWriter
      throw (.failed .tooLarge)
    | halt => throw halt

def writerStep (id : Name) (p : WriterPlace) (step : WriterStep) : Play Reply := orLose id do
  let w := p.writer b
  match step with
  | .write v => do run (w.write (← bytes v)); writerState p
  | .writeByte byte => do run (w.write [byte]); writerState p
  | .flush => do run w.flush; writerState p
  | .streamWrite v => do
    let v ← bytes v
    stream (w.write v)
    return .number v.length
  | .streamFlush => do stream w.flush; writerState p
  | .state => writerState p
  | .close => do
    bind id .closedWriter
    run w.close
    return .nothing

def readerStep (p : ReaderPlace) (step : ReaderStep) : Play Reply := do
  let r := p.reader b
  match step with
  | .byte offset => return .number (← run (r.readByte offset)).toNat
  | .bytes offset len => return .cell (← run (r.readBytes offset len))
  | .read len => return .cell (← stream (r.read len))
  | .readExact len => return .cell (← stream (r.readExact len))
  | .readToEnd => return .cell (← stream r.readToEnd)
  | .seek target => return .number (← stream (r.seek target)).toNat
  | .state => return p.reply ((← get).readers.getD p.slot {})

def lockStep (p : LockPlace) (step : LockStep) : Play Reply := do
  let l := p.lock b
  match step with
  | .obtain => return .flag (← run l.obtain)
  | .close => do run l.close; return .nothing
  | .isLocked => return .flag (← run l.isLocked)
  | .isOwner => return .flag ((← get).locks.getD p.slot false)
  | .name => return .text l.name
  | .signature => return .number l.signature.toNat

def directoryStep (p : DirectoryPlace) (step : DirectoryStep) : Play Reply := do
  let d := p.directory b
  match step with
  | .list => return .keyList (← run d.list)
  | .sync => do run d.sync; return .nothing
  | .settings => return .document p.settings.toDocument
  | .has k => return .flag (← run (d.has (← key k)))
  | .length k => return .number (← run (d.length (← key k))).toNat
  | .delete k => do run (d.delete (← key k)); return .nothing
  | .clearLock k => do run (d.clearLock (← key k)); return .nothing
  | .copy k dest destKey => do
    let dest ← directory dest
    run (Directory.copy d (← key k) (dest.directory b) (← key destKey))
    return .nothing
  | .write k v => do
    let k ← key k
    let v ← bytes v
    let s ← run (d.withWriter k fun w => do w.write v; w.state.read)
    return (WriterPlace.mk p.data p.catalog k 0).reply s
  | .read k => return .cell (← run (d.readFile (← key k)))

/-! ## Time -/

/-- lets what the schedule yields happen -/
def happenAll (events : List (Event Task)) : Play Unit := run (events.forM (happen b))

def sleep (millis : UInt64) : Play Reply := do
  let (s, events) := (← get).schedule.sleep millis.toNat
  modify fun w => { w with schedule := s }
  happenAll b events
  return .nothing

def schedulerStep (id : Name) (n : Nat) (step : SchedulerStep) : Play Reply := do
  match step with
  | .register task =>
    let job : Job Task ← do
      match ← object task with
      | .ticks _ job => pure job
      | .store (.cached slot settings inner) =>
        pure { subject := .evictions slot settings inner, interval := settings.evictionInterval }
      | _ => refuse
    modify fun w => { w with schedule := w.schedule.register n job }
    return .nothing
  | .shutdown =>
    let (clean, s, events) := (← get).schedule.shutdown n
    modify fun w => { w with schedule := s, objects := w.objects.erase id }
    happenAll b events
    if !clean then throw (.failed (.state .taskLost))
    return .nothing

/-! ## Probes -/

/-- the slot of a probe -/
def probe (id : Name) : Play Nat := do
  match ← stack id with
  | .probed slot _ => pure slot
  | _ => refuse

/-! ## All steps -/

def step (c : Command) : Play Reply := do
  match c with
  | .make id what => do
    bind id (← make b what)
    return .nothing
  | .store id uncached s => do
    let stack ← stack id
    if uncached then
      match stack.uncached? with
      | some beneath => storeStep b beneath s
      | none => return .text "buffers nothing"
    else storeStep b stack s
  | .memory id s => do memoryStep (← stack id) s
  | .cache id s => do cacheStep b (← stack id) s
  | .session id s => do
    match ← object id with
    | .session slot => sessionStep slot s
    | _ => refuse
  | .addRule id rule => do
    let slot ← probe id
    let k ← rule.key.mapM key
    run ((World.probe slot).modify fun s => { s with rules := s.rules ++ [{ rule with key := k }] })
    return .nothing
  | .counts id => do return probeCounts ((← get).probes.getD (← probe id) {})
  | .resetCounts id => do
    run ((World.probe (← probe id)).modify fun s => { s with calls := [], bytes := 0 })
    return .nothing
  | .clearRules id => do
    run ((World.probe (← probe id)).modify fun s => { s with rules := [] })
    return .nothing
  | .policy id s => do
    match ← object id with
    | .policy e slot => policyStep e slot s
    | _ => refuse
  | .clock s => clockStep s
  | .catalog id s => do catalogStep ((← catalog id).catalog b) s
  | .writer id s => do
    match ← object id with
    | .writer p => writerStep b id p s
    | _ => refuse
  | .reader id s => do
    match ← object id with
    | .reader p => readerStep b p s
    | _ => refuse
  | .lock id s => do
    match ← object id with
    | .lock p => lockStep b p s
    | _ => refuse
  | .directory id s => do directoryStep b (← directory id) s
  | .scheduler id s => do
    match ← object id with
    | .scheduler n => schedulerStep b id n s
    | _ => refuse
  | .sleep millis => sleep b millis
  | .dump id => do
    match (← object id).dump (← get) with
    | some r => return r
    | none => refuse
  | .malformed => refuse

end

end Play

/-! ## Scenarios -/

/-- how deeply rules can set off rules; rules whose uses are limited stop long before -/
def nesting : Nat := 0x10000

/-- carries out a step; rivals nest at most `depth` deep, and do nothing beyond -/
def play : Nat → Command → StateM World (Except Halt Reply)
  | 0, _ => pure (.error .refused)
  | depth + 1, c =>
    Play.step (backing fun script w => (.ok (), (script.forM (m := StateM World) (discard <| play depth ·) w).2)) c

end RowFiles.Scenario
