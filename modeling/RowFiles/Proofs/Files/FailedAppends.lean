/-
Appends to a file while the tables refuse calls.

The tables of a shaky desk refuse calls as they like, each without effect: gets and puts of the data, puts of lengths and
of entries in the listing. A writer on the desk goes on whatever its writes and flushes answer. A write that is refused at
some column leaves the cells of the columns before it in the writer's cache, and a flush that is refused has written some
cells and lengths out. Later writes go over what is left there.

- `step_counts`, `play_counts`: the pointer, the checksum and the length count the writes that were taken and no other, and
  the file's bytes below the pointer are those it had and those of the writes that were taken.
- `failed_appends_leave_no_trace`: so it is after any run, and once a flush ends well this length is written out and the
  stored bytes below it are these.
-/
import RowFiles.Proofs.Files.FrailWriters
import RowFiles.Proofs.Files.RoundTrip

namespace RowFiles

open Run

/-! ## A shaky desk -/

structure ShakyDesk extends Desk where
  /-- how many calls the tables have been asked for -/
  asked : Nat := 0

namespace ShakyDesk

/-- how a desk works: how wide its tables are, which calls they refuse, and the orders in which it writes -/
structure Ways where
  width : Nat
  nameWidth : Nat
  /-- the reason for which the `n`th call is refused, if it is -/
  refuse : Nat → Option Error
  /-- the orders drawn at the `n`th time -/
  files : Nat → List Key → List Key
  cells : Nat → List (Address Column) → List (Address Column)
  positive : 0 < width
  files_perm : ∀ n keys, (files n keys).Perm keys
  cells_perm : ∀ n as, (cells n as).Perm as

/-- lets a call through, or refuses it -/
def ask (refuse : Nat → Option Error) (_ : Call) : Run ShakyDesk Unit := fun h =>
  (match refuse h.asked with | some e => .error e | none => .ok (), { h with asked := h.asked + 1 })

/-- the order drawn at the `n`th time for some items is `walk n` of them -/
def draw {α : Type} (walk : Nat → List α → List α) (as : List α) : Run ShakyDesk (List α) :=
  fun h => (.ok (walk h.drawn as), { h with drawn := h.drawn + 1 })

namespace Ways

variable (w : Ways) (key : Key)

/-- the same desk while nothing is refused -/
def calm : Ways := { w with refuse := fun _ => none }

def catalog : Catalog (Run ShakyDesk) where
  rows := (Table.rows (Run.part (fun h => h.names) fun t h => { h with names := t }) w.nameWidth).guarded (ask w.refuse)
  state := Run.part (fun h => h.catalog) fun x h => { h with catalog := x }
  order := draw w.files

def writer : Writer (Run ShakyDesk) where
  rows := (Table.rows (Run.part (fun h => h.data) fun t h => { h with data := t }) w.width).guarded (ask w.refuse)
  catalog := w.catalog
  key := key
  state := Run.part (fun h => h.writer) fun x h => { h with writer := x }
  order := draw w.cells

@[simp] theorem writer_key : (w.writer key).key = key := rfl

end Ways

/-- the bytes that a step adds: those of a write, if it was taken -/
def took : Writer.Step → Except Error Unit → Bytes
  | .write buf, .ok () => buf
  | _, _ => []

namespace Ways

variable (w : Ways) (key : Key)

/-- steps of the writer one after another, whatever each answers: the bytes of the writes that were taken, and the desk
that is left -/
def play : List Writer.Step → ShakyDesk → Bytes × ShakyDesk
  | [], h => ([], h)
  | step :: steps, h =>
    let (o, h) := (w.writer key).act step h
    let (later, h) := play steps h
    (took step o ++ later, h)

theorem play_cons (step : Writer.Step) (steps : List Writer.Step) (h : ShakyDesk) :
    w.play key (step :: steps) h =
      (took step ((w.writer key).act step h).1 ++ (w.play key steps ((w.writer key).act step h).2).1,
        (w.play key steps ((w.writer key).act step h).2).2) := rfl

/-- no write of a run goes past the last offset -/
def Fits : List Writer.Step → ShakyDesk → Prop
  | [], _ => True
  | step :: steps, h =>
    h.writer.pointer.toNat + (Writer.bytes [step]).length < UInt64.size ∧ Fits steps ((w.writer key).act step h).2

instance decidableFits : ∀ steps h, Decidable (w.Fits key steps h)
  | [], _ => inferInstanceAs (Decidable True)
  | _ :: steps, _ => @instDecidableAnd _ _ _ (decidableFits steps _)

/-! ## What a desk shows -/

/-- what a desk shows of its writer and its catalog; on a calm desk no call will be refused from now on -/
def Viewed (calm : Prop) (h : ShakyDesk) (u : Layer CatalogState (Layer WriterState Unit)) : Prop :=
  Desk.Written h.toDesk u ∧ (calm → ∀ n ≥ h.asked, w.refuse n = none)

variable {w key} {calm : Prop} {failing : Call → Prop}

theorem ask_tries (may : ¬ calm → ∀ q, failing q) (q : Call)
    (view : Table Column → Layer CatalogState (Layer WriterState Unit)) (t : Table Column) :
    Tries (fun h t => w.Viewed calm h (view t)) (ask w.refuse q) t (failing q) fun _ u => u = t := by
  intro h hs
  obtain ⟨shown, quiet⟩ := hs
  have later : calm → ∀ n ≥ h.asked + 1, w.refuse n = none := fun c n hn => quiet c n (by omega)
  refine ⟨t, ⟨shown, later⟩, ?_⟩
  cases refused : w.refuse h.asked with
  | none => exact .inl ⟨(), by simp only [ask, refused], rfl⟩
  | some e =>
    have storm : ¬ calm := fun c => by
      rw [quiet c h.asked (Nat.le_refl _)] at refused
      cases refused
    exact .inr ⟨may storm q, ⟨e, by simp only [ask, refused]⟩, rfl⟩

theorem catalog_laws (may : ¬ calm → ∀ q, failing q) : w.catalog.FrailLaws (w.Viewed calm) Eq failing where
  inner x r := (Table.rows_serve (fun _ _ hs => hs.1.2.1) (fun _ _ _ hs => ⟨⟨hs.1.1, rfl, hs.1.2.2⟩, hs.2⟩) w.nameWidth _
    ).guarded fun q => ask_tries may q fun t => ⟨x, t, r⟩
  read _ _ hs := ⟨_, hs, _, rfl, hs.1.1, rfl⟩
  write x u _ hs := ⟨{ u with held := x }, ⟨⟨rfl, hs.1.2⟩, hs.2⟩, (), rfl, rfl⟩
  order ks u _ hs := ⟨u, hs, _, rfl, w.files_perm _ ks, rfl⟩

theorem writer_laws (key : Key) (may : ¬ calm → ∀ q, failing q) :
    (w.writer key).FrailLaws (w.Viewed calm) Eq failing where
  catalog := catalog_laws may
  writer x t :=
    { inner := fun y r => (Table.rows_serve (fun _ _ hs => hs.1.2.2.2)
        (fun _ _ _ hs => ⟨⟨hs.1.1, hs.1.2.1, hs.1.2.2.1, rfl⟩, hs.2⟩) w.width _).guarded
          fun q => ask_tries may q fun u => ⟨x, t, ⟨y, u, r⟩⟩
      read := fun _ _ hs => ⟨_, hs, _, rfl, hs.1.2.2.1, rfl⟩
      write := fun y v _ hs => ⟨{ v with held := y }, ⟨⟨hs.1.1, hs.1.2.1, rfl, hs.1.2.2.2⟩, hs.2⟩, (), rfl, rfl⟩ }
  order as u _ hs := ⟨u, hs, _, rfl, w.cells_perm _ as, rfl⟩

/-! ## What is counted -/

variable (w key) in
/-- a writer has come to the bytes `b` of its file, of which it has written `mine` -/
structure Counts (b mine : Bytes) (u : Layer CatalogState (Layer WriterState Unit)) : Prop where
  opened : ∃ p, (w.writer key).Opened (· = key) (fun _ => none) () (UInt64.ofNat b.length) p (({} : Digest).write mine) u ∧
    Layout.read w.width p key 0 b.length = b
  /-- the length is held in memory -/
  held : u.held.lengths[key]? = some (UInt64.ofNat b.length)
  small : b.length < UInt64.size

variable {b mine : Bytes} {u : Layer CatalogState (Layer WriterState Unit)}

theorem Counts.pointer (h : w.Counts key b mine u) : u.rest.held.pointer.toNat = b.length := by
  obtain ⟨⟨p, opened, _⟩, _, small⟩ := h
  rw [opened.pointer]
  exact UInt64.toNat_ofNat_of_lt small

/-- **A write** counts if it is taken, and leaves no trace below the pointer if it is not. -/
theorem write_counts (may : ¬ calm → ∀ q, failing q) {buf : Bytes}
    (fits : u.rest.held.pointer.toNat + buf.length < UInt64.size) (h : w.Counts key b mine u) :
    Stops (w.Viewed calm) ((w.writer key).write buf) u (someFails failing ∨ longestBuffer < w.width)
      (fun _ => w.Counts key (b ++ buf) (mine ++ buf)) (w.Counts key b mine) := by
  rw [h.pointer] at fits
  obtain ⟨⟨p, opened, whole⟩, held, small⟩ := h
  have start : (UInt64.ofNat b.length).toNat = b.length := UInt64.toNat_ofNat_of_lt small
  have stop : UInt64.ofNat b.length + UInt64.ofNat buf.length = UInt64.ofNat (b ++ buf).length := by
    rw [List.length_append, UInt64.ofNat_add]
  refine Stops.mono ((writer_laws key may).write w.positive (start.symm ▸ fits) opened) ?_ ?_
  · intro _ u' hu
    obtain ⟨opened', _, held'⟩ := hu
    rw [start, stop] at opened'
    rw [stop] at held'
    refine ⟨⟨_, ?_, Layout.read_writeSpans_append w.positive whole buf (Nat.le_of_lt fits)⟩, held', ?_⟩
    · rw [Digest.write_append]
      exact opened'
    · rw [List.length_append]
      exact fits
  · intro u' hu
    obtain ⟨⟨q, opened', kept⟩, _, same⟩ := hu
    rw [start] at kept
    exact ⟨⟨q, opened', (Layout.read_below w.positive (Nat.le_refl _) kept).trans whole⟩, by rw [same, held], small⟩

/-- **A flush** leaves what is counted, and nothing to be flushed if it ends well. -/
theorem flush_counts (may : ¬ calm → ∀ q, failing q) (h : w.Counts key b mine u) :
    Stops (w.Viewed calm) (w.writer key).flush u (someFails failing)
      (fun _ u' => w.Counts key b mine u' ∧ Writer.Flushed u') (w.Counts key b mine) := by
  obtain ⟨⟨p, opened, whole⟩, held, small⟩ := h
  refine Stops.mono ((writer_laws key may).flush opened) ?_ ?_
  · intro _ u' hu
    obtain ⟨⟨opened', same⟩, flushed⟩ := hu
    exact ⟨⟨⟨p, opened', whole⟩, by rw [same, held], small⟩, flushed⟩
  · intro u' hu
    obtain ⟨opened', same⟩ := hu
    exact ⟨⟨p, opened', whole⟩, by rw [same, held], small⟩

/-- a step counts the bytes that it adds, whether it ends well or not -/
theorem step_counts {step : Writer.Step}
    (fits : u.rest.held.pointer.toNat + (Writer.bytes [step]).length < UInt64.size)
    (h : w.Counts key b mine u) :
    Ends (w.Viewed False) ((w.writer key).act step) u fun o u' =>
      w.Counts key (b ++ took step o) (mine ++ took step o) u' := by
  have may : ¬ False → ∀ q : Call, True := fun _ _ => trivial
  cases step with
  | write buf =>
    rw [Writer.bytes, Writer.bytes, List.append_nil] at fits
    refine Ends.mono (write_counts may fits h) fun o u' hu => ?_
    rcases hu with ⟨_, rfl, counts⟩ | ⟨_, ⟨e, rfl⟩, counts⟩
    · exact counts
    · have nothing : took (.write buf) (.error e) = [] := rfl
      rw [nothing, List.append_nil, List.append_nil]
      exact counts
  | flush =>
    refine Ends.mono (flush_counts may h) fun o u' hu => ?_
    have nothing : took .flush o = [] := rfl
    rw [nothing, List.append_nil, List.append_nil]
    rcases hu with ⟨_, _, counts, _⟩ | ⟨_, _, counts⟩
    · exact counts
    · exact counts

/-- **A run** counts the bytes of the writes that were taken. -/
theorem play_counts (steps : List Writer.Step) {h : ShakyDesk} (shown : w.Viewed False h u) (counts : w.Counts key b mine u)
    (fits : w.Fits key steps h) :
    ∃ u', w.Viewed False (w.play key steps h).2 u' ∧
      w.Counts key (b ++ (w.play key steps h).1) (mine ++ (w.play key steps h).1) u' := by
  induction steps generalizing h u b mine with
  | nil =>
    refine ⟨u, shown, ?_⟩
    rw [play, List.append_nil, List.append_nil]
    exact counts
  | cons step steps ih =>
    obtain ⟨first, later⟩ := fits
    obtain ⟨u₁, shown₁, counts₁⟩ := step_counts (shown.1.2.2.1 ▸ first) counts h shown
    obtain ⟨u₂, shown₂, counts₂⟩ := ih shown₁ counts₁ later
    refine ⟨u₂, shown₂, ?_⟩
    rw [play_cons, ← List.append_assoc, ← List.append_assoc]
    exact counts₂

/-! ## What is promised of a desk -/

variable (w key) in
/-- the file's bytes are `c`, and its length is in memory or written; a file without bytes may have none -/
structure Files (c : Bytes) (h : ShakyDesk) : Prop where
  length : ∃ n, Catalog.Coherent (· = key) (fun _ => n) [] h.catalog h.names ∧
    (n = some (UInt64.ofNat c.length) ∨ n = none ∧ c = [])
  bytes : Layout.read w.width h.data key 0 c.length = c
  small : c.length < UInt64.size

variable (w key) in
/-- what is true of a writer and its file, which had the bytes `c`, once writes that came to `mine` have been taken -/
structure Accounts (c mine : Bytes) (h : ShakyDesk) : Prop where
  pointer : h.writer.pointer.toNat = (c ++ mine).length
  checksum : h.writer.digest.checksum = crc32 mine
  length : ∃ h', w.catalog.length key h = (.ok (UInt64.ofNat (c ++ mine).length), h')
  /-- a flush that ends well has written the length and the bytes -/
  flushed : ∀ h', (w.writer key).flush h = (.ok (), h') →
    h'.names.get (Catalog.lengthRow key) Catalog.lengthColumn =
        some (Bytes.ofUInt64 (UInt64.ofNat (c ++ mine).length)) ∧
      Layout.read w.width h'.data key 0 (c ++ mine).length = c ++ mine
  /-- if nothing is refused from now on, a flush ends well, and a write is taken -/
  retried : (∀ n ≥ h.asked, w.refuse n = none) →
    (∃ h', (w.writer key).flush h = (.ok (), h')) ∧
      ∀ buf, (c ++ mine ++ buf).length < UInt64.size → w.width ≤ longestBuffer →
        ∃ h', (w.writer key).write buf h = (.ok (), h')

theorem Counts.accounts {c : Bytes} {h : ShakyDesk} (counts : w.Counts key (c ++ mine) mine u)
    (shown : w.Viewed False h u) : w.Accounts key c mine h := by
  have may : ¬ False → ∀ q : Call, True := fun _ _ => trivial
  obtain ⟨catalog, names, writer, data⟩ := shown.1
  constructor
  · rw [writer, counts.pointer]
  · obtain ⟨p, opened, _⟩ := counts.opened
    rw [writer, opened.digest]
    rfl
  · obtain ⟨_, h', _, run, _, rfl, _⟩ := ((catalog_laws may).length_known counts.held).run shown
    exact ⟨h', run⟩
  · intro h' run
    obtain ⟨u', shown', ended⟩ := flush_counts may counts h shown
    rw [run] at shown' ended
    obtain ⟨_, _, ⟨⟨p, opened, whole⟩, _, _⟩, flushed⟩ | ⟨_, ⟨e, failed⟩, _⟩ := ended
    · obtain ⟨_, names', _, data'⟩ := shown'.1
      refine ⟨?_, ?_⟩
      · have written := opened.lengths.get_of_clean rfl flushed.lengths
        rw [writer_key, Function.update_self] at written
        rw [← names'] at written
        exact written
      · rw [show h'.data = p from data'.trans (opened.beneath flushed)]
        exact whole
    · cases failed
  · intro quiet
    have calm : w.Viewed True h u := ⟨shown.1, fun _ => quiet⟩
    have sure : ¬ True → ∀ q, never q := fun h => absurd trivial h
    refine ⟨?_, fun buf fits narrow => ?_⟩
    · obtain ⟨_, _, ⟨_, ended, _⟩ | ⟨fails, _⟩⟩ := flush_counts sure counts h calm
      · exact ⟨_, Prod.ext ended rfl⟩
      · exact absurd fails not_someFails
    · rw [List.length_append, ← counts.pointer] at fits
      obtain ⟨_, _, ⟨_, ended, _⟩ | ⟨fails | wide, _⟩⟩ := write_counts sure fits counts h calm
      · exact ⟨_, Prod.ext ended rfl⟩
      · exact absurd fails not_someFails
      · exact absurd narrow (Nat.not_le.2 wide)

/-- a writer that is opened while nothing is refused has come to the file's bytes -/
theorem reopen_counts {c : Bytes} {h : ShakyDesk} (files : w.Files key c h) :
    ∃ h₀ u, (w.calm.writer key).reopen h = (.ok (), h₀) ∧ w.Viewed False h₀ u ∧ w.Counts key c [] u := by
  obtain ⟨⟨n, coherent, known⟩, bytes, small⟩ := files
  have frail : (w.calm.writer key).FrailLaws (w.calm.Viewed True) Eq never :=
    writer_laws key fun h => absurd trivial h
  have shown : w.calm.Viewed True h ⟨h.catalog, h.names, h.writer, h.data, ()⟩ := ⟨⟨rfl, rfl, rfl, rfl⟩, fun _ _ _ => rfl⟩
  have begins : n.getD 0 = UInt64.ofNat c.length := by
    rcases known with rfl | ⟨rfl, rfl⟩
    · rfl
    · rfl
  obtain ⟨x, h₁, u₁, ran, shown₁, rfl, ⟨lengths, rest⟩, _, _⟩ := (Writer.start_records frail.laws.catalog
    (w.calm.writer key).rows w.positive (S := (· = key)) rfl ⟨coherent, rfl⟩).run shown
  obtain ⟨u₂, shown₂, held⟩ := Writer.start_keeps frail.catalog (w.calm.writer key).rows key _ h shown
  rw [ran] at shown₂ held
  obtain ⟨catalog, names, _, data⟩ := shown₁.1
  have sameCatalog : u₂.held = u₁.held := shown₂.1.1.symm.trans catalog
  have sameData : u₁.rest.beneath = h.data := by rw [rest]
  have held₁ := held _ rfl
  rw [sameCatalog] at held₁
  simp only [begins] at ran held₁ lengths
  have opens : (w.calm.writer key).reopen h = (.ok (), { h₁ with writer := { pointer := UInt64.ofNat c.length } }) := by
    rw [Writer.reopen]
    exact bind_of_ok ran
  refine ⟨_, ⟨u₁.held, u₁.beneath, { pointer := UInt64.ofNat c.length }, u₁.rest.beneath, ()⟩, opens,
    ⟨⟨catalog, names, rfl, data⟩, nofun⟩, ⟨u₁.rest.beneath, ⟨rfl, rfl, ?_, .new _, rfl⟩, ?_⟩, held₁, small⟩
  · refine lengths.congr_lengths fun k here => ?_
    subst here
    rw [writer_key, Function.update_self, Function.update_self]
  · rw [sameData]
    exact bytes

/-- **Failed appends leave no trace below the length.** A writer is opened on a file with the bytes `c`. Whatever calls of
its writes and flushes are refused from then on, the writer's pointer, its checksum and the recorded length count the
writes that were taken and no other. Once a flush ends well, this length is written, and the stored bytes up to it are `c`
and those of the writes that were taken. -/
theorem failed_appends_leave_no_trace (w : Ways) (key : Key) (c : Bytes) (h : ShakyDesk) (files : w.Files key c h) :
    ∃ h₀, (w.calm.writer key).reopen h = (.ok (), h₀) ∧ ∀ steps, w.Fits key steps h₀ →
      w.Accounts key c (w.play key steps h₀).1 (w.play key steps h₀).2 := by
  obtain ⟨h₀, u, opens, shown, counts⟩ := reopen_counts files
  refine ⟨h₀, opens, fun steps fits => ?_⟩
  obtain ⟨u', shown', counts'⟩ := play_counts steps shown counts fits
  rw [List.nil_append] at counts'
  exact counts'.accounts shown'

/-- a write is refused at its second column, and a flush at the listing; the next ones are not -/
theorem failed_appends_leave_no_trace_twice :
    let w : Ways := ⟨4, 8, fun n => if n = 1 ∨ n = 4 then some (.backend "down") else none, fun _ => id, fun _ => id,
      by decide, fun _ _ => .refl _, fun _ _ => .refl _⟩
    let h : ShakyDesk :=
      { data := Table.empty.put "f" 0 [1, 2, 3, 0], names := Table.empty.put (Catalog.lengthRow "f") 0 (Bytes.ofUInt64 3) }
    let steps : List Writer.Step := [.write [4, 5, 6], .write [7], .flush, .flush]
    ∃ h₀, (w.calm.writer "f").reopen h = (.ok (), h₀) ∧ (w.play "f" steps h₀).1 = [7] ∧
      (w.play "f" steps h₀).2.data.row "f" = [(0, [1, 2, 3, 7])] ∧
      w.Accounts "f" [1, 2, 3] [7] (w.play "f" steps h₀).2 := by
  intro w h steps
  have recorded : Catalog.Coherent (· = "f") (fun _ => some 3) [] h.catalog h.names :=
    .new ((Table.get_put ..).trans (if_pos ⟨rfl, rfl⟩))
  have files : w.Files "f" [1, 2, 3] h := ⟨⟨_, recorded, .inl rfl⟩, by decide +kernel, by decide⟩
  obtain ⟨h₀, opens, accounts⟩ := failed_appends_leave_no_trace w "f" [1, 2, 3] h files
  obtain rfl : ((w.calm.writer "f").reopen h).2 = h₀ := congrArg Prod.snd opens
  have taken : (w.play "f" steps ((w.calm.writer "f").reopen h).2).1 = [7] := by decide +kernel
  have counted := accounts steps (by decide +kernel)
  rw [taken] at counted
  exact ⟨_, opens, taken, by decide +kernel, counted⟩

end Ways

end ShakyDesk

end RowFiles
