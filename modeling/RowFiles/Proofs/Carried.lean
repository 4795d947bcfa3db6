/-
Programs carried from one monad to another.

Caches, catalogs, writers and readers are records of calls and of parts of a state, and their operations are put together
from these. `Carry` is a way of running programs that keeps how they are put together. So an operation carried over is
the same operation on the record whose calls are carried over (`Writer.write_carried`, `Reader.readBytes_carried` and
the others).

`Run.lend` is the way used for files read and written in one go: a run with a room of its own is a run on a larger
state.
-/
import Mathlib.Tactic.SplitIfs
import RowFiles.Files.Directory
import RowFiles.Proofs.Store.Tables

namespace RowFiles

/-- a way of running the programs of `m` in `n`; the handler of a failure is carried over if what failed is `steady` -/
structure Carry (m n : Type → Type) [Monad m] [MonadExceptOf Error m] [Monad n] [MonadExceptOf Error n] where
  run : {α : Type} → m α → n α
  run_pure : ∀ {α : Type} (a : α), run (pure a) = pure a
  run_bind : ∀ {α β : Type} (x : m α) (f : α → m β), run (x >>= f) = run x >>= fun a => run (f a)
  run_throw : ∀ {α : Type} (e : Error), run (throw e : m α) = throw e
  steady : {α : Type} → m α → Prop
  steady_bind : ∀ {α β : Type} {x : m α} {f : α → m β}, steady x → (∀ a, steady (f a)) → steady (x >>= f)
  run_tryCatch : ∀ {α : Type} {x : m α} (h : Error → m α), steady x →
    run (tryCatch x h) = tryCatch (run x) fun e => run (h e)

variable {m n : Type → Type} [Monad m] [MonadExceptOf Error m] [Monad n] [MonadExceptOf Error n]

/-! ## Records carried over -/

def Part.carried {σ : Type} (p : Part m σ) (φ : Carry m n) : Part n σ := ⟨φ.run p.read, fun s => φ.run (p.write s)⟩

def Rows.carried (r : Rows m) (φ : Carry m n) : Rows n where
  width := r.width
  put k c v := φ.run (r.put k c v)
  get k c := φ.run (r.get k c)
  delete k := φ.run (r.delete k)
  deleteColumn k c := φ.run (r.deleteColumn k c)
  hasKey k := φ.run (r.hasKey k)
  values k := φ.run (r.values k)
  keys := φ.run r.keys
  sync := φ.run r.sync

def Cache.carried (c : Cache m) (φ : Carry m n) : Cache n where
  inner := c.inner.carried φ
  settings := c.settings
  state := c.state.carried φ
  now := φ.run c.now
  order as := φ.run (c.order as)

def Catalog.carried (c : Catalog m) (φ : Carry m n) : Catalog n where
  rows := c.rows.carried φ
  state := c.state.carried φ
  order keys := φ.run (c.order keys)

def Writer.carried (w : Writer m) (φ : Carry m n) : Writer n where
  rows := w.rows.carried φ
  catalog := w.catalog.carried φ
  key := w.key
  state := w.state.carried φ
  order as := φ.run (w.order as)

def Reader.carried (r : Reader m) (φ : Carry m n) : Reader n where
  rows := r.rows.carried φ
  key := r.key
  length := r.length
  state := r.state.carried φ

variable (φ : Carry m n)

theorem Part.modify_carried {σ : Type} (p : Part m σ) (f : σ → σ) : φ.run (p.modify f) = (p.carried φ).modify f := by
  rw [modify, φ.run_bind]
  rfl

/-- steps one after another are carried over one by one -/
theorem Carry.run_forM {α : Type} (f : α → m Unit) (l : List α) : φ.run (l.forM f) = l.forM fun a => φ.run (f a) := by
  induction l with
  | nil => exact φ.run_pure ()
  | cons a l ih =>
    change φ.run (f a >>= fun _ => l.forM f) = φ.run (f a) >>= fun _ => l.forM fun a => φ.run (f a)
    rw [φ.run_bind, ih]

theorem Carry.run_checkWord (k : Nat) : φ.run (checkWord k) = checkWord k := by
  rw [checkWord, checkWord]
  split_ifs
  · exact φ.run_pure ()
  · exact φ.run_throw .tooLarge

/-! ## Operations carried over -/

/-! ### Catalogs -/

namespace Catalog

variable (c : Catalog m)

theorem persist_carried (key : Key) (length : UInt64) :
    φ.run (c.persist key length) = (c.carried φ).persist key length := by
  rw [persist, φ.run_bind]
  rfl

theorem setLength_carried (key : Key) (length : UInt64) (commit : Bool) :
    φ.run (c.setLength key length commit) = (c.carried φ).setLength key length commit := by
  rw [setLength, φ.run_bind]
  cases commit with
  | false => simp only [Part.modify_carried, Bool.false_eq_true, if_false]; rfl
  | true => simp only [Part.modify_carried, if_true, φ.run_bind, c.persist_carried φ]; rfl

theorem persistAll_carried (puts : ∀ k col v, φ.steady (c.rows.put k col v)) (keys : List Key) :
    φ.run (c.persistAll keys) = (c.carried φ).persistAll keys := by
  induction keys with
  | nil => exact φ.run_pure ()
  | cons key rest ih =>
    simp only [persistAll, φ.run_bind]
    congr 1
    funext s
    cases s.lengths[key]? with
    | none => exact ih
    | some n =>
      have persist : φ.steady (c.persist key n) := φ.steady_bind (puts _ _ _) fun _ => puts _ _ _
      simp only [φ.run_bind, φ.run_tryCatch _ persist, φ.run_throw, Part.modify_carried, c.persist_carried φ, ih]
      rfl

theorem flush_carried (puts : ∀ k col v, φ.steady (c.rows.put k col v)) (clear : Bool) :
    φ.run (c.flush clear) = (c.carried φ).flush clear := by
  rw [flush]
  cases clear with
  | false => simp only [φ.run_bind, φ.run_pure, c.persistAll_carried φ puts, Bool.false_eq_true, if_false]; rfl
  | true => simp only [φ.run_bind, c.persistAll_carried φ puts, Part.modify_carried, if_true]; rfl

end Catalog

/-! ### Caches -/

namespace Cache

variable (c : Cache m)

theorem writeOut_carried (puts : ∀ k col v, φ.steady (c.inner.put k col v)) (as : List (Address Column)) :
    φ.run (c.writeOut as) = (c.carried φ).writeOut as := by
  induction as with
  | nil => exact φ.run_pure ()
  | cons a rest ih =>
    simp only [writeOut, φ.run_bind]
    congr 1
    funext s
    cases s.value? a with
    | none => exact ih
    | some v =>
      simp only [φ.run_bind, φ.run_tryCatch _ (puts _ _ _), φ.run_throw, Part.modify_carried, ih]
      rfl

theorem flush_carried (puts : ∀ k col v, φ.steady (c.inner.put k col v)) (empty : Bool) :
    φ.run (c.flush empty) = (c.carried φ).flush empty := by
  rw [flush]
  cases empty with
  | false => simp only [φ.run_bind, φ.run_pure, c.writeOut_carried φ puts, Bool.false_eq_true, if_false]; rfl
  | true => simp only [φ.run_bind, c.writeOut_carried φ puts, Part.modify_carried, if_true]; rfl

theorem put_carried (puts : ∀ k col v, φ.steady (c.inner.put k col v)) (k : Key) (col : Column) (v : Bytes) :
    φ.run (c.put k col v) = (c.carried φ).put k col v := by
  simp only [put, φ.run_bind, Part.modify_carried]
  congr 1
  funext now
  congr 1
  funext _
  by_cases auto : c.settings.autoFlush = true
  · rw [if_pos auto, c.flush_carried φ puts, if_pos (show (c.carried φ).settings.autoFlush = true from auto)]
  · rw [if_neg auto, φ.run_pure, if_neg (show ¬ (c.carried φ).settings.autoFlush = true from auto)]

theorem getCached_carried (a : Address Column) : φ.run (c.getCached a) = (c.carried φ).getCached a := by
  simp only [getCached, φ.run_bind, φ.run_pure, Part.modify_carried]
  rfl

theorem get_carried (k : Key) (col : Column) : φ.run (c.get k col) = (c.carried φ).get k col := by
  simp only [get, φ.run_bind]
  congr 1
  funext s
  cases s.value? ⟨k, col⟩ with
  | some u => exact c.getCached_carried φ _
  | none =>
    simp only [φ.run_bind]
    congr 1
    funext found
    cases found with
    | none => exact φ.run_pure _
    | some u => simp only [φ.run_bind, Part.modify_carried, c.getCached_carried φ]; rfl

end Cache

/-! ### Readers -/

namespace Reader

variable (r : Reader m)

theorem width_carried : φ.run r.width = (r.carried φ).width := by
  change φ.run (if r.rows.width = 0 then _ else _) = if r.rows.width = 0 then _ else _
  split_ifs with zero
  · exact φ.run_throw _
  · exact φ.run_pure _

theorem column_carried (c : Column) : φ.run (r.column c) = (r.carried φ).column c := by
  have fetched : φ.run (column.fetch r c) = column.fetch (r.carried φ) c := by
    simp only [column.fetch, φ.run_bind, φ.run_pure, Part.modify_carried]
    rfl
  simp only [column, φ.run_bind]
  congr 1
  funext s
  cases s.current with
  | none => exact fetched
  | some kept =>
    by_cases same : kept.1 = c
    · simp only [if_pos same, φ.run_pure]
    · simp only [if_neg same, fetched]

end Reader

/-! ## Operations with parts of parts and lists -/

variable [LawfulMonad m] [LawfulMonad n]

theorem Carry.run_map {α β : Type} (f : α → β) (x : m α) : φ.run (f <$> x) = f <$> φ.run x := by
  rw [← bind_pure_comp, φ.run_bind, ← bind_pure_comp]
  simp only [φ.run_pure]

theorem Carry.run_mapM {α β : Type} (f : α → m β) (l : List α) : φ.run (l.mapM f) = l.mapM fun a => φ.run (f a) := by
  induction l with
  | nil => exact φ.run_pure []
  | cons a l ih => simp only [List.mapM_cons, φ.run_bind, φ.run_pure, ih]

theorem Part.focus_carried {σ τ : Type} (p : Part m σ) (get : σ → τ) (set : τ → σ → σ) :
    (p.focus get set).carried φ = (p.carried φ).focus get set := by
  simp only [focus, carried, φ.run_map, modify_carried]

/-! ### Writers -/

namespace Writer

variable (w : Writer m)

theorem cache_carried : w.cache.carried φ = (w.carried φ).cache := by
  simp only [cache, Cache.carried, Part.focus_carried, φ.run_pure]
  rfl

theorem writeSpans_carried (puts : ∀ k col v, φ.steady (w.rows.put k col v)) (spans : List Layout.Span) (buf : Bytes) :
    φ.run (w.writeSpans spans buf) = (w.carried φ).writeSpans spans buf := by
  induction spans generalizing buf with
  | nil => exact φ.run_pure ()
  | cons s spans ih =>
    simp only [writeSpans, φ.run_bind, w.cache.get_carried φ, w.cache_carried φ]
    congr 1
    funext cell
    change φ.run (if List.length (cell.getD []) < w.rows.width ∧ longestBuffer < w.rows.width then _ else _) =
      if List.length (cell.getD []) < w.rows.width ∧ longestBuffer < w.rows.width then _ else _
    split_ifs with wide
    · simp only [φ.run_bind, φ.run_throw, φ.run_checkWord, w.cache.put_carried φ puts, w.cache_carried φ, ih]
      rfl
    · simp only [φ.run_bind, φ.run_checkWord, w.cache.put_carried φ puts, w.cache_carried φ, ih]
      rfl

theorem write_carried (puts : ∀ k col v, φ.steady (w.rows.put k col v)) (buf : Bytes) :
    φ.run (w.write buf) = (w.carried φ).write buf := by
  simp only [write, φ.run_bind, w.writeSpans_carried φ puts, Part.modify_carried, w.catalog.setLength_carried φ]
  rfl

theorem flush_carried (puts : ∀ k col v, φ.steady (w.rows.put k col v))
    (persists : ∀ k col v, φ.steady (w.catalog.rows.put k col v)) : φ.run w.flush = (w.carried φ).flush := by
  simp only [flush, φ.run_bind, w.cache.flush_carried φ puts, w.cache_carried φ, w.catalog.flush_carried φ persists]
  rfl

end Writer

/-! ### Readers, at a stretch -/

namespace Reader

variable (r : Reader m)

theorem readBytes_carried (offset : UInt64) (len : Nat) :
    φ.run (r.readBytes offset len) = (r.carried φ).readBytes offset len := by
  have pieces : ∀ s, φ.run (r.piece s) = (r.carried φ).piece s := fun s => by
    simp only [piece, φ.run_bind, φ.run_pure, φ.run_checkWord, r.column_carried φ]
    rfl
  simp only [readBytes, φ.run_bind, r.width_carried φ]
  congr 1
  funext w
  split_ifs with long
  · simp only [φ.run_bind, φ.run_throw, φ.run_mapM, pieces, φ.run_pure]
  · simp only [φ.run_bind, φ.run_mapM, pieces, φ.run_pure]

end Reader

/-! ## Runs with a room of their own -/

namespace Run

variable {σ τ ν μ α : Type}

/-- a run on a state and a room, as a run on the state with a room of its own; steady runs leave the room alone -/
def lend : Carry (Run (σ × τ)) (StateT τ (Run σ)) where
  run x := fun t s => match x (s, t) with
    | (.ok a, (s, t)) => (.ok (a, t), s)
    | (.error e, (s, _)) => (.error e, s)
  run_pure _ := rfl
  run_bind {α β} x f := by
    funext t s
    have unfolded (y : StateT τ (Run σ) α) (g : α → StateT τ (Run σ) β) :
        (y >>= g) t s = (y t >>= fun q => g q.1 q.2 : Run σ _) s := rfl
    rw [unfolded, bind_apply, bind_apply]
    rcases x (s, t) with ⟨_ | _, _, _⟩ <;> rfl
  run_throw _ := rfl
  steady x := ∀ p, (x p).2.2 = p.2
  steady_bind {α β x f} hx hf := by
    intro p
    rw [← hx p, bind_apply]
    rcases x p with ⟨_ | a, p'⟩
    · rfl
    · exact hf a p'
  run_tryCatch {α x} h hx := by
    funext t s
    have unfolded (y : StateT τ (Run σ) α) (g : Error → StateT τ (Run σ) α) :
        (tryCatch y g) t s = (tryCatch (y t) fun e => g e t : Run σ _) s := rfl
    have same := hx (s, t)
    rw [unfolded, tryCatch_apply, tryCatch_apply]
    rcases found : x (s, t) with ⟨e | _, s', t'⟩
    · rw [found] at same
      obtain rfl : t' = t := same
      rfl
    · rfl

/-- what is run without the room -/
def apart (x : Run σ α) : Run (σ × τ) α := within Prod.fst (fun s p => (s, p.2)) x

theorem lend_apart (x : Run σ α) : lend.run (apart x) = (liftM x : StateT τ (Run σ) α) := by
  funext t s
  have unfolded : (liftM x : StateT τ (Run σ) α) t s = (x >>= fun a => pure (a, t) : Run σ _) s := rfl
  rw [unfolded, bind_apply]
  simp only [lend, apart, within]
  rcases x s with ⟨_ | _, _⟩ <;> rfl

theorem steady_apart (x : Run σ α) : (lend : Carry (Run (σ × τ)) _).steady (apart x) := fun _ => rfl

/-- a room is given to a run and dropped afterwards -/
theorem lend_run' (x : Run (σ × τ) α) (s : σ) (t : τ) :
    (lend.run x).run' t s = ((x (s, t)).1, (x (s, t)).2.1) := by
  have unfolded (y : StateT τ (Run σ) α) : y.run' t s = ((·.1) <$> y t : Run σ _) s := rfl
  simp only [unfolded, map_apply, lend]
  rcases x (s, t) with ⟨_ | _, _, _⟩ <;> rfl

theorem Ends.lend {R : σ → ν → Prop} {S : σ × τ → μ → Prop} {x : Run (σ × τ) α} {t : τ} {v : ν} {u : μ}
    {P : Except Error α → μ → Prop} {Q : Except Error α → ν → Prop} (h : Ends S x u P)
    (start : ∀ s, R s v → S (s, t) u) (stop : ∀ o w, P o w → ∃ w', (∀ p, S p w → R p.1 w') ∧ Q o w') :
    Ends R ((Run.lend.run x).run' t) v Q := by
  intro s hs
  obtain ⟨w, hw, hp⟩ := h (s, t) (start s hs)
  obtain ⟨w', back, hq⟩ := stop _ w hp
  rw [lend_run']
  exact ⟨w', back _ hw, hq⟩

theorem Fails.lend {R : σ → ν → Prop} {S : σ × τ → μ → Prop} {x : Run (σ × τ) α} {t : τ} {v : ν} {u : μ} {e : Error}
    (h : Fails S x u e) (start : ∀ s, R s v → S (s, t) u) : Fails R ((Run.lend.run x).run' t) v e := by
  intro s hs
  rw [lend_run']
  exact h (s, t) (start s hs)

/-- what is run without the room leaves it as it is -/
theorem Ends.apart {R : σ → ν → Prop} {x : Run σ α} {v : ν} {Q : Except Error α → ν → Prop} (h : Ends R x v Q) (t : τ) :
    Ends (fun p v => R p.1 v ∧ p.2 = t) (Run.apart x) v Q := by
  intro p hp
  obtain ⟨w, hw, hq⟩ := h p.1 hp.1
  exact ⟨w, ⟨hw, hp.2⟩, hq⟩

end Run

/-! ## Readers and writers of a run with a room -/

/-- what a run that reads or writes a file holds for itself -/
abbrev Room := ReaderState × WriterState

section Rooms

open Run

variable {σ τ : Type}

/-- the calls of a store, run without the room -/
def Rows.apart (r : Rows (Run σ)) : Rows (Run (σ × τ)) where
  width := r.width
  put k c v := Run.apart (r.put k c v)
  get k c := Run.apart (r.get k c)
  delete k := Run.apart (r.delete k)
  deleteColumn k c := Run.apart (r.deleteColumn k c)
  hasKey k := Run.apart (r.hasKey k)
  values k := Run.apart (r.values k)
  keys := Run.apart r.keys
  sync := Run.apart r.sync

theorem Rows.apart_carried (r : Rows (Run σ)) : (r.apart : Rows (Run (σ × τ))).carried lend = r.lift := by
  simp only [carried, apart, lift, lend_apart]

/-- a store without the room serves the same table -/
theorem Rows.Serves.apart {r : Rows (Run σ)} {Shows : σ → Table Column → Prop} {scan : List Bytes → List Bytes → Prop}
    {failing : Call → Prop} (serves : r.Serves Shows scan failing) (l : τ) :
    (r.apart : Rows (Run (σ × τ))).Serves (fun p t => Shows p.1 t ∧ p.2 = l) scan failing where
  put k c v t := (serves.put k c v t).apart l
  get k c t := (serves.get k c t).apart l
  delete k t := (serves.delete k t).apart l
  hasKey k t := (serves.hasKey k t).apart l
  values k t := (serves.values k t).apart l
  sync t := (serves.sync t).apart l

namespace Directory

variable (d : Directory (Run σ))

/-- the directory's catalog, beside a room -/
def lentCatalog : Catalog (Run (σ × Room)) where
  rows := d.catalog.rows.apart
  state := ⟨Run.apart d.catalog.state.read, fun x => Run.apart (d.catalog.state.write x)⟩
  order keys := Run.apart (d.catalog.order keys)

/-- a writer whose state is in the room -/
def lentWriter (name : Key) : Writer (Run (σ × Room)) where
  rows := d.data.toRows.apart
  catalog := d.lentCatalog
  key := name
  state := Run.part (fun p => p.2.2) fun w p => (p.1, (p.2.1, w))
  order as := Run.apart (d.order as)

/-- a reader whose state is in the room -/
def lentReader (name : Key) (length : UInt64) : Reader (Run (σ × Room)) where
  rows := d.data.toRows.apart
  key := name
  length := length
  state := Run.part (fun p => p.2.1) fun r p => (p.1, (r, p.2.2))

theorem lentCatalog_carried : d.lentCatalog.carried lend = d.localCatalog := by
  simp only [Catalog.carried, lentCatalog, localCatalog, Rows.apart_carried, Part.carried, lend_apart]

theorem lentWriter_carried (name : Key) : (d.lentWriter name).carried lend = d.localWriter name := by
  simp only [Writer.carried, lentWriter, localWriter, Rows.apart_carried, lentCatalog_carried, lend_apart]
  rfl

theorem lentWriter_flush (name : Key) : lend.run (d.lentWriter name).flush = (d.localWriter name).flush := by
  rw [(d.lentWriter name).flush_carried lend (fun _ _ _ => steady_apart _) fun _ _ _ => steady_apart _,
    lentWriter_carried]

theorem lentReader_carried (name : Key) (length : UInt64) :
    (d.lentReader name length).carried lend = d.localReader name length := by
  simp only [Reader.carried, lentReader, localReader, Rows.apart_carried]
  rfl

/-- copies chunks beside a room -/
def lentChunks (reader : Reader (Run (σ × Room))) (writer : Writer (Run (σ × Room))) (chunk i : Nat) :
    Nat → Run (σ × Room) Unit
  | 0 => pure ()
  | n + 1 => do
    let size := min chunk (reader.length.toNat - i * chunk)
    writer.write (← reader.readBytes (UInt64.ofNat (i * chunk)) size)
    lentChunks reader writer chunk (i + 1) n

theorem lentChunks_carried (source : Directory (Run σ)) (src : Key) (length : UInt64) (dest : Directory (Run σ))
    (dst : Key) (chunk i n : Nat) :
    lend.run (lentChunks (source.lentReader src length) (dest.lentWriter dst) chunk i n) =
      copyChunks (source.localReader src length) (dest.localWriter dst) chunk i n := by
  induction n generalizing i with
  | zero => rfl
  | succ n ih =>
    simp only [lentChunks, copyChunks, lend.run_bind, Reader.readBytes_carried, lentReader_carried,
      (dest.lentWriter dst).write_carried lend fun _ _ _ => steady_apart _, lentWriter_carried, ih]
    rfl

end Directory

end Rooms

end RowFiles
