/-
Files that are copied byte by byte.

The bytes go over in chunks, each read from the source and then appended to the destination. The writer keeps them in its
cache until it is closed, so the source stays as it was found even where both files lie in one store, and each chunk is
the next stretch of it (`Directory.Laws.chunks`). Put together the chunks are the source's bytes (`bytes_copySteps`), and
what a writer leaves is decided by its bytes. So a copy replaces the destination by the source's bytes
(`Directory.Laws.byteCopy`), or fails where a chunk or a buffer would be too long (`Directory.Laws.byteCopy_refused`).
-/
import RowFiles.Proofs.Files.Directories

namespace RowFiles

open Run

/-- what is copied of a row: `n` chunks from chunk `k` on, each a step of its own -/
def chunkSteps (width chunk : Nat) (t : Table Column) (src : Key) (len k : Nat) : Nat → List Writer.Step
  | 0 => []
  | n + 1 =>
    .write (Layout.read width t src (k * chunk) (min chunk (len - k * chunk))) ::
      chunkSteps width chunk t src len (k + 1) n

/-- **Chunks put together** are the stretch that they cover. -/
theorem bytes_chunkSteps {width : Nat} (hw : 0 < width) {chunk len k n : Nat} {t : Table Column} {src : Key}
    (enough : len ≤ (k + n) * chunk) :
    Writer.bytes (chunkSteps width chunk t src len k n) = Layout.read width t src (k * chunk) (len - k * chunk) := by
  induction n generalizing k with
  | zero =>
    have done : len - k * chunk = 0 := Nat.sub_eq_zero_of_le enough
    rw [done]
    rfl
  | succ n ih =>
    have later : len ≤ (k + 1 + n) * chunk := by rwa [Nat.add_right_comm, Nat.add_assoc]
    have next : (k + 1) * chunk = k * chunk + chunk := Nat.succ_mul _ _
    rw [chunkSteps, Writer.bytes, ih later]
    rcases Nat.le_total len ((k + 1) * chunk) with last | more
    · have here : min chunk (len - k * chunk) = len - k * chunk := by omega
      have past : len - (k + 1) * chunk = 0 := Nat.sub_eq_zero_of_le last
      rw [here, past]
      simp [Layout.read]
    · have here : min chunk (len - k * chunk) = chunk := by omega
      have whole : len - k * chunk = chunk + (len - (k + 1) * chunk) := by omega
      rw [here, whole, next, Layout.read_add hw]

/-- how many bytes are copied at a time -/
def chunkLength (width : Nat) : Nat := max (width * Directory.copyColumns) 1

theorem chunkLength_pos (width : Nat) : 0 < chunkLength width := Nat.le_max_right _ _

/-- in how many chunks a file is copied -/
def chunkCount (width : Nat) (n : UInt64) : Nat := (n.toNat + chunkLength width - 1) / chunkLength width

/-- every chunk begins within the file -/
theorem chunk_begins {width q : Nat} {n : UInt64} (h : q < chunkCount width n) : q * chunkLength width < n.toNat := by
  have := chunkLength_pos width
  rw [chunkCount, Nat.lt_div_iff_mul_lt this] at h
  omega

/-- the chunks cover the file -/
theorem le_chunkCount_mul (width : Nat) (n : UInt64) : n.toNat ≤ chunkCount width n * chunkLength width := by
  have := chunkLength_pos width
  have := Nat.div_add_mod (n.toNat + chunkLength width - 1) (chunkLength width)
  have := Nat.mod_lt (n.toNat + chunkLength width - 1) (chunkLength_pos width)
  rw [chunkCount, Nat.mul_comm]
  omega

/-- what is copied of a file -/
def copySteps (width : Nat) (t : Table Column) (src : Key) (n : UInt64) : List Writer.Step :=
  chunkSteps width (chunkLength width) t src n.toNat 0 (chunkCount width n)

theorem bytes_copySteps {width : Nat} (hw : 0 < width) (t : Table Column) (src : Key) (n : UInt64) :
    Writer.bytes (copySteps width t src n) = Layout.read width t src 0 n.toNat := by
  rw [copySteps, bytes_chunkSteps hw (by rw [Nat.zero_add]; exact le_chunkCount_mul width n), Nat.zero_mul, Nat.sub_zero]

/-- a copy comes to the same as one write of all its bytes -/
theorem written_copySteps {fromWidth toWidth : Nat} (hf : 0 < fromWidth) (ht : 0 < toWidth) (t : Table Column) (src : Key)
    (n : UInt64) {p : Table Column} {dst : Key} (empty : ∀ c, p.get dst c = none) :
    Writer.written toWidth dst (copySteps fromWidth t src n) 0 p =
      Writer.written toWidth dst [.write (Layout.read fromWidth t src 0 n.toNat)] 0 p := by
  have bytes := bytes_copySteps hf t src n
  refine Writer.written_congr ht (.empty empty) ?_ ?_
  · rw [bytes, Writer.bytes, Writer.bytes, List.append_nil]
  · rw [bytes, Layout.length_read hf, List.length_nil, Nat.zero_add]
    exact n.toNat_lt_size

/-- a copy is not too long: the length of a chunk is a number, and buffers take the chunks read and the columns written -/
def CopyFits (fromWidth toWidth : Nat) (n : UInt64) : Prop :=
  fromWidth * Directory.copyColumns < UInt64.size ∧
    (n = 0 ∨ min (chunkLength fromWidth) n.toNat ≤ longestBuffer ∧ toWidth ≤ longestBuffer)

/-- where no buffer is needed there are no chunks -/
theorem CopyFits.few {fromWidth toWidth : Nat} {n : UInt64} (fits : CopyFits fromWidth toWidth n) :
    chunkCount fromWidth n = 0 ∨ min (chunkLength fromWidth) n.toNat ≤ longestBuffer := by
  refine fits.2.imp (fun none => Nat.eq_zero_of_not_pos fun some => ?_) And.left
  have begins := chunk_begins some
  rw [none] at begins
  exact absurd begins (Nat.not_lt_zero _)

/-- a new file takes all bytes of the copy -/
theorem CopyFits.takes {fromWidth toWidth : Nat} {n : UInt64} (fits : CopyFits fromWidth toWidth n) (hf : 0 < fromWidth)
    (t : Table Column) (src : Key) :
    Writer.Takes toWidth (0 : UInt64).toNat (Writer.bytes (copySteps fromWidth t src n)) := by
  rw [bytes_copySteps hf]
  rcases fits.2 with rfl | ⟨_, narrow⟩
  · exact .inl (by simp [Layout.read])
  · refine .inr ⟨narrow, ?_⟩
    rw [Layout.length_read hf, UInt64.toNat_zero, Nat.zero_add]
    exact n.toNat_lt_size

namespace Stock

variable (f : Stock)

/-- after a file is replaced by other bytes -/
def replaced (width : Nat) (name : Key) (b : Bytes) : Stock := (f.without name).after width name [.write b]

end Stock

namespace Directory

variable {σ : Type} {e d : Directory (Run σ)} {i j : Nat} {R : σ → Shelves → Prop} {U : Key → Prop} {F : Stocks}
  {src dst : Key}

/-! ## A reader beside a writer -/

/-- a reader beside an open writer: what it keeps is the source's, which is as it was found -/
structure Reads (i j : Nat) (src : Key) (t : Table Column) (u : Bench) : Prop where
  source : ((u.atBench j).1 i).data = t
  fresh : Reader.Fresh src ⟨u.rest.rest.2, t, u.rest⟩

/-- a writer that keeps its bytes in its cache leaves the source as it is -/
theorem Reads.congr {t : Table Column} {u u' : Bench} (reads : Reads i j src t u)
    (beneath : u'.rest.beneath = u.rest.beneath) (rest : u'.rest.rest = u.rest.rest) : Reads i j src t u' where
  source := by
    rw [← reads.source]
    by_cases same : i = j
    · simp [Layer.atBench, same, beneath]
    · simp [Layer.atBench, same, rest]
  fresh := by
    rw [rest]
    exact reads.fresh

namespace Laws

/-- a stretch of the source is read beside the writer -/
theorem readBeside (source : e.Laws i R) (he : 0 < e.data.width) (length offset : UInt64) (len : Nat) {V : Shelves}
    {m : Catalog.Index} {a : UInt64} {p t : Table Column} {u : Bench} (drafts : d.Drafts U V m dst a p u)
    (reads : Reads i j src t u) :
    Ends (fun p u => Beside R p (u.atBench j)) ((e.lentReader src length).readBytes offset len) u fun o u' =>
      o = Layout.stretch e.data.width t src offset.toNat len ∧ d.Drafts U V m dst a p u' ∧ Reads i j src t u' := by
  obtain ⟨⟨digest, opened⟩, others, orderly⟩ := drafts
  have fresh : Reader.Fresh src ⟨u.rest.rest.2, ((u.atBench j).1 i).data, ((u.atBench j).1, u.rest.held)⟩ :=
    reads.source ▸ reads.fresh
  refine (source.readBytes he fresh length offset len).through (fun p hp => hp) ?_
  intro _ _ hw
  obtain ⟨rfl, x, fresh, rfl⟩ := hw
  rw [reads.source] at fresh ⊢
  refine ⟨⟨u.held, u.beneath, ⟨u.rest.held, u.rest.beneath, (u.rest.rest.1, x)⟩⟩, fun p hp => hp, rfl, ?_,
    reads.source, fresh⟩
  exact ⟨⟨digest, opened.pointer, opened.digest, opened.lengths, opened.cells, rfl⟩, others, orderly⟩

/-- a chunk is read as the source has it -/
theorem readChunk (source : e.Laws i R) (he : 0 < e.data.width) {length : UInt64} {chunk k : Nat}
    (short : min chunk length.toNat ≤ longestBuffer) (inside : k * chunk < UInt64.size) {V : Shelves}
    {m : Catalog.Index} {a : UInt64} {p t : Table Column} {u : Bench} (drafts : d.Drafts U V m dst a p u)
    (reads : Reads i j src t u) :
    Yields (fun p u => Beside R p (u.atBench j))
      ((e.lentReader src length).readBytes (UInt64.ofNat (k * chunk)) (min chunk (length.toNat - k * chunk))) u
      fun bs u' => bs = Layout.read e.data.width t src (k * chunk) (min chunk (length.toNat - k * chunk)) ∧
        d.Drafts U V m dst a p u' ∧ Reads i j src t u' := by
  refine Ends.mono (source.readBeside he length _ _ drafts reads) fun o u' hu => ?_
  obtain ⟨rfl, kept⟩ := hu
  have offset : (UInt64.ofNat (k * chunk)).toNat = k * chunk := UInt64.toNat_ofNat_of_lt inside
  have within : Layout.InRange (k * chunk) (min chunk (length.toNat - k * chunk)) := by
    have := length.toNat_lt_size
    rw [Layout.InRange]
    omega
  rw [offset]
  exact ⟨_, Layout.stretch_of_fits _ _ (by omega) within, rfl, kept⟩

/-- **Chunks are copied** one by one, each as the source has it. -/
theorem chunks (source : e.Laws i R) (dest : d.Laws j R) (he : 0 < e.data.width) {length : UInt64} {chunk : Nat}
    {k n : Nat} (short : n = 0 ∨ min chunk length.toNat ≤ longestBuffer)
    (inside : ∀ q < k + n, q * chunk < UInt64.size) {V : Shelves} {m : Catalog.Index} {a : UInt64} {p t : Table Column}
    (fits : Writer.Takes d.data.width a.toNat (Writer.bytes (chunkSteps e.data.width chunk t src length.toNat k n)))
    {u : Bench} (drafts : d.Drafts U V m dst a p u) (used : U dst) (reads : Reads i j src t u) :
    Yields (fun p u => Beside R p (u.atBench j))
      (lentChunks (e.lentReader src length) (d.lentWriter dst) chunk k n) u fun _ u' =>
      let stop := Writer.written d.data.width dst (chunkSteps e.data.width chunk t src length.toNat k n) a p
      d.Drafts U V m dst stop.1 stop.2 u' := by
  induction n generalizing k a p u with
  | zero => exact yields_pure () drafts
  | succ n ih =>
    have short := short.resolve_left (Nat.succ_ne_zero n)
    obtain ⟨taken, later⟩ := Writer.takes_append.1 fits
    refine (source.readChunk he short (inside k (by omega)) drafts reads).bind ?_
    intro _ u₁ hu
    obtain ⟨rfl, ⟨⟨digest, opened⟩, others, orderly⟩, reads⟩ := hu
    refine ((dest.writer dst).write taken opened).bind ?_
    intro _ u₂ hu
    obtain ⟨opened', same, order, _⟩ := hu
    have others' : u₂.rest.rest.1 = V := (congrArg Prod.fst opened'.rest).trans others
    refine ih (.inr short) (fun q hq => inside q (by omega)) later
      ⟨⟨_, opened'.rest ▸ opened'⟩, others', order U used orderly⟩ ?_
    exact reads.congr same opened'.rest

/-- no chunk can be copied if it is longer than any buffer, or the columns it goes to are wider -/
theorem chunks_refused (source : e.Laws i R) (dest : d.Laws j R) (he : 0 < e.data.width) {length : UInt64} {chunk : Nat}
    (some : 0 < min chunk length.toNat) (unfit : longestBuffer < min chunk length.toNat ∨ longestBuffer < d.data.width)
    (n : Nat) {V : Shelves} {m : Catalog.Index} {a : UInt64} {p t : Table Column} {u : Bench}
    (drafts : d.Drafts U V m dst a p u) (empty : ∀ c, p.get dst c = none) (reads : Reads i j src t u) :
    Fails (fun p u => Beside R p (u.atBench j))
      (lentChunks (e.lentReader src length) (d.lentWriter dst) chunk 0 (n + 1)) u .tooLarge := by
  have first : length.toNat - 0 * chunk = length.toNat := by omega
  by_cases long : longestBuffer < min chunk length.toNat
  · refine Fails.bind (Ends.fails (Q := fun _ => True) (Ends.mono (source.readBeside he length _ _ drafts reads) ?_))
    rintro _ _ ⟨rfl, _⟩
    refine ⟨Layout.stretch_refused _ _ fun fits => Nat.not_lt.2 fits.1 ?_, trivial⟩
    rwa [show (e.lentReader src length).length = length from rfl, first]
  · have wide : longestBuffer < d.data.width := unfit.resolve_left long
    have start : 0 * chunk < UInt64.size := by
      rw [Nat.zero_mul]
      decide
    refine (source.readChunk he (Nat.not_lt.1 long) start drafts reads).fails ?_
    intro bs u₁ hu
    obtain ⟨rfl, ⟨⟨digest, opened⟩, _⟩, _⟩ := hu
    refine ((dest.writer dst).write_refused (Nat.zero_lt_of_lt wide) ?_ (fun _ => empty) opened).bind
    rintro (none | ⟨narrow, _⟩)
    · rw [first, ← List.length_eq_zero_iff, Layout.length_read he] at none
      omega
    · exact Nat.not_lt.2 narrow wide

end Laws

/-! ## Copies -/

/-- a copy that finds its writer open, beside a room -/
def lentCopy (source : Directory (Run σ)) (src : Key) (length : UInt64) (dest : Directory (Run σ)) (dst : Key) :
    Run (σ × Room) Unit := do
  lentChunks (source.lentReader src length) (dest.lentWriter dst) (chunkLength source.data.width) 0
    (chunkCount source.data.width length)
  (dest.lentWriter dst).close

/-- the bytes of a file of a length are written to another -/
def fill (source : Directory (Run σ)) (src : Key) (length : UInt64) (dest : Directory (Run σ)) (dst : Key) :
    Run σ Unit := do
  let writer ← dest.startWriter dst
  checkWord (source.data.width * copyColumns)
  (lend.run (lentCopy source src length dest dst)).run' ({}, writer)

theorem byteCopy_eq (source : Directory (Run σ)) (src : Key) (dest : Directory (Run σ)) (dst : Key) :
    byteCopy source src dest dst = (do
      let length ← source.length src
      dest.removeIfPresent dst
      fill source src length dest dst) := by
  simp only [fill, lentCopy, lend.run_bind, lentChunks_carried, Writer.close, lentWriter_flush]
  rfl

namespace Laws

/-- a reader opened with a writer finds the source as the shelves have it -/
theorem reads_opened {V W : Shelves} {x : WriterState} {m : Catalog.Index} {a : UInt64} {p : Table Column} {u : Bench}
    (keeps : ∀ k, (V k).Keeps U (F k)) (shown : u.atBench j = (W, ({}, x))) (beneath : u.rest.beneath = (F j).data)
    (drafts : d.Drafts U V m dst a p u) : Reads i j src (F i).data u where
  source := by
    by_cases same : i = j
    · simp [Layer.atBench, same, beneath]
    · simp [Layer.atBench, same, drafts.others, (keeps i).data]
  fresh := by
    have new : u.rest.rest.2 = {} := congrArg (fun q : Shelves × Room => q.2.1) shown
    rw [new]
    rintro c cell ⟨⟩

/-- a file that has no bytes takes those of another -/
theorem fill (source : e.Laws i R) (dest : d.Laws j R) (he : 0 < e.data.width) (hd : 0 < d.data.width) (used : U dst)
    (absent : dst ∉ (F j).lengths) (empty : ∀ c, (F j).data.get dst c = none) {n : UInt64}
    (fits : CopyFits e.data.width d.data.width n) :
    Yields (Stocked R U) (Directory.fill e src n d dst) F fun _ G => G = Function.update F j
      ((F j).after d.data.width dst [.write (Layout.read e.data.width (F i).data src 0 n.toNat)]) := by
  refine ends_stocked fun V keeps => ?_
  refine (dest.opened hd used keeps).ends ?_
  intro x W hW
  obtain ⟨u, shown, beneath, drafts⟩ := hW
  rw [checkWord_of_lt fits.1, pure_bind]
  have reads : Reads i j src (F i).data u := reads_opened keeps shown beneath drafts
  have inside : ∀ q < 0 + chunkCount e.data.width n, q * chunkLength e.data.width < UInt64.size := fun q hq =>
    Nat.lt_trans (chunk_begins (by rwa [Nat.zero_add] at hq)) n.toNat_lt_size
  have start : (F j).lengths[dst]?.getD 0 = 0 := by simp [absent]
  have copied : Yields (fun p u => Beside R p (u.atBench j)) (lentCopy e src n d dst) u fun _ u' =>
      ∀ k, ((u'.atBench j).1 k).Keeps U (Function.update F j
        ((F j).after d.data.width dst [.write (Layout.read e.data.width (F i).data src 0 n.toNat)]) k) := by
    rw [start] at drafts
    refine (source.chunks dest he fits.few inside (fits.takes he _ _) drafts used reads).bind ?_
    intro _ u₁ drafts
    rw [← copySteps, written_copySteps he hd _ _ _ empty] at drafts
    rw [Stock.after, start]
    exact dest.closed used keeps drafts
  refine copied.lend (fun s hs => ?_) fun o u' hu => ?_
  · rw [shown]
    exact ⟨hs, rfl⟩
  · obtain ⟨_, rfl, keeps'⟩ := hu
    exact ⟨_, fun p hp => hp.1, _, keeps', (), rfl, rfl⟩

theorem fill_refused (source : e.Laws i R) (dest : d.Laws j R) (he : 0 < e.data.width) (hd : 0 < d.data.width)
    (used : U dst) (empty : ∀ c, (F j).data.get dst c = none) {n : UInt64}
    (unfit : ¬ CopyFits e.data.width d.data.width n) : Fails (Stocked R U) (Directory.fill e src n d dst) F .tooLarge := by
  refine fails_stocked fun V keeps => ?_
  refine (dest.opened hd used keeps).fails ?_
  intro x W hW
  obtain ⟨u, shown, beneath, drafts⟩ := hW
  by_cases word : e.data.width * copyColumns < UInt64.size
  · rw [checkWord_of_lt word, pure_bind]
    obtain ⟨some, long⟩ := not_or.1 fun fits => unfit ⟨word, fits⟩
    have positive : 0 < n.toNat := Nat.pos_of_ne_zero fun none => some (UInt64.toNat_inj.1 none)
    obtain ⟨count, hcount⟩ : ∃ count, chunkCount e.data.width n = count + 1 :=
      Nat.exists_eq_succ_of_ne_zero fun none => by
        have := le_chunkCount_mul e.data.width n
        rw [none, Nat.zero_mul] at this
        omega
    have reads : Reads i j src (F i).data u := reads_opened keeps shown beneath drafts
    have refused : Fails (fun p u => Beside R p (u.atBench j)) (lentCopy e src n d dst) u .tooLarge := by
      rw [lentCopy, hcount]
      refine (source.chunks_refused dest he ?_ ?_ count drafts empty reads).bind
      · exact Nat.lt_min.2 ⟨chunkLength_pos _, positive⟩
      · rw [not_and_or, Nat.not_le, Nat.not_le] at long
        exact long
    refine refused.lend fun s hs => ?_
    rw [shown]
    exact ⟨hs, rfl⟩
  · rw [checkWord_of_not_lt word]
    exact (fails_throw _).bind

/-- a file that is replaced by another one leaves the other's row -/
theorem read_without {w pos len : Nat} (other : ¬ (i = j ∧ src = dst)) :
    Layout.read w (Function.update F j ((F j).without dst) i).data src pos len = Layout.read w (F i).data src pos len := by
  by_cases same : i = j
  · subst same
    refine Layout.read_congr (fun c => ?_) pos len
    rw [Function.update_self, Stock.without, Table.get_delete, if_neg fun e => other ⟨rfl, e.symm⟩]
  · rw [Function.update_of_ne same]

/-- **A copy** replaces the destination by the bytes of the source. -/
theorem byteCopy (source : e.Laws i R) (dest : d.Laws j R) (he : 0 < e.data.width) (hd : 0 < d.data.width)
    (used : U dst) (other : ¬ (i = j ∧ src = dst)) (absent : dst ∉ (F j).lengths → ∀ c, (F j).data.get dst c = none)
    {n : UInt64} (found : (F i).lengths[src]? = some n) (fits : CopyFits e.data.width d.data.width n) :
    Yields (Stocked R U) (Directory.byteCopy e src d dst) F fun _ G => G = Function.update F j
      ((F j).replaced d.data.width dst (Layout.read e.data.width (F i).data src 0 n.toNat)) := by
  rw [byteCopy_eq]
  refine (source.lengthOf found).next ?_
  refine (dest.removedIfPresent dest.deletes used absent).step ?_
  have here : Function.update F j ((F j).without dst) j = (F j).without dst := Function.update_self ..
  have filled : Yields (Stocked R U) (Directory.fill e src n d dst) (Function.update F j ((F j).without dst)) _ :=
    source.fill dest he hd used (by simp [Stock.without]) (fun c => by simp [Stock.get_without]) fits
  rw [read_without other, here, Function.update_idem] at filled
  exact filled

theorem byteCopy_refused (source : e.Laws i R) (dest : d.Laws j R) (he : 0 < e.data.width) (hd : 0 < d.data.width)
    (used : U dst) (absent : dst ∉ (F j).lengths → ∀ c, (F j).data.get dst c = none) {n : UInt64}
    (found : (F i).lengths[src]? = some n) (unfit : ¬ CopyFits e.data.width d.data.width n) :
    Fails (Stocked R U) (Directory.byteCopy e src d dst) F .tooLarge := by
  rw [byteCopy_eq]
  refine (source.lengthOf found).fails ?_
  intro _ _ hG
  obtain ⟨rfl, rfl⟩ := hG
  refine (dest.removedIfPresent dest.deletes used absent).fails ?_
  intro _ _ hG
  subst hG
  refine source.fill_refused dest he hd used (fun c => ?_) unfit
  rw [Function.update_self, Stock.get_without, if_pos rfl]

end Laws

end Directory

end RowFiles
