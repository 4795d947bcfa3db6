/-
A write-back cache cannot be told from the table beneath it.

A host holds a table in memory, a cache over it, and a clock. A run on the host makes calls, flushes the cache, runs
evictions and moves the clock, in any order. `cached_run_agrees`: its answers are those of the same calls on the plain
table, whatever the settings and in whatever order marked cells are written. Lists of keys may differ in their order.

Left out is the removal of single cells, which a cache may answer by deleting the whole row beneath.
-/
import RowFiles.Proofs.Store.Caching

namespace RowFiles

open Run

/-! ## Calls on stores that serve a table -/

/-- two answers to one call: the same, or the same keys, of which the first names none twice -/
def Answer.Agrees : Answer → Answer → Prop
  | .keys ks, .keys ls => ks.Nodup ∧ ∀ k, k ∈ ks ↔ k ∈ ls
  | a, b => a = b

/-- a store that serves a table and lists its rows answers each call, other than those for single cells, as the table -/
theorem Rows.Serves.call {τ : Type} {r : Rows (Run τ)} {Shows : τ → Table Column → Prop} (serves : r.Serves Shows Eq never)
    (lists : r.Lists Shows never) (width : Nat) {q : Call} (whole : ∀ k col, q ≠ .deleteColumn k col) (t : Table Column) :
    ∃ b u, (Table.plainRows width).call q t = (.ok b, u) ∧ Yields Shows (r.call q) t fun a w => a.Agrees b ∧ w = u := by
  cases q with
  | put k col v =>
    refine ⟨.done, t.put k col v, rfl, ((serves.put k col v t).yields id).bind ?_⟩
    intro _ _ hw
    subst hw
    exact yields_pure _ ⟨rfl, rfl⟩
  | get k col =>
    refine ⟨.cell (t.get k col), t, rfl, (((serves.get k col t).yields id).mono ?_).map⟩
    intro _ _ hw
    obtain ⟨rfl, rfl⟩ := hw
    exact ⟨rfl, rfl⟩
  | delete k =>
    refine ⟨.done, t.delete k, Table.plainRows_delete .., ((serves.delete k t).yields id).bind ?_⟩
    intro _ _ hw
    subst hw
    exact yields_pure _ ⟨rfl, rfl⟩
  | deleteColumn k col => exact absurd rfl (whole k col)
  | hasKey k =>
    refine ⟨.flag (t.hasKey k), t, Table.plainRows_hasKey .., (((serves.hasKey k t).yields id).mono ?_).map⟩
    intro _ _ hw
    obtain ⟨rfl, rfl⟩ := hw
    exact ⟨rfl, rfl⟩
  | values k =>
    refine ⟨.values (t.values k), t, Table.plainRows_values .., (((serves.values k t).yields id).mono ?_).map⟩
    intro _ _ hw
    obtain ⟨rfl, rfl⟩ := hw
    exact ⟨rfl, rfl⟩
  | keys => exact ⟨.keys t.keys, t, rfl, (((lists t).yields id).mono fun _ _ h => h).map⟩
  | sync =>
    refine ⟨.done, t, rfl, ((serves.sync t).yields id).bind ?_⟩
    intro _ _ hw
    subst hw
    exact yields_pure _ ⟨rfl, rfl⟩

/-! ## A host and its runs -/

structure Host where
  cache : CacheState := {}
  table : Table Column
  clock : UInt64 := 0
  /-- how often an order has been drawn -/
  drawn : Nat := 0

namespace Host

inductive Step where
  | call (q : Call)
  | flush (empty : Bool)
  | evict
  | clock (time : UInt64)

/-- the order drawn at the `n`th time for some cells is `walk n` of them -/
def draw (walk : Nat → List (Address Column) → List (Address Column)) (as : List (Address Column)) :
    Run Host (List (Address Column)) :=
  fun h => (.ok (walk h.drawn as), { h with drawn := h.drawn + 1 })

variable (settings : CacheSettings) (width : Nat) (walk : Nat → List (Address Column) → List (Address Column))

/-- the cache of a host -/
def cacheOver : Cache (Run Host) where
  inner := Table.rows (Run.part Host.table fun t h => { h with table := t }) width
  settings := settings
  state := Run.part Host.cache fun x h => { h with cache := x }
  now := (Run.part Host.clock fun time h => { h with clock := time }).read
  order := draw walk

/-- a run on the cache, with the answers to its calls -/
def play : List Step → Run Host (List Answer)
  | [] => pure []
  | .call q :: rest => do
    let a ← (cacheOver settings width walk).rows.call q
    let as ← play rest
    pure (a :: as)
  | .flush empty :: rest => do
    (cacheOver settings width walk).flush empty
    play rest
  | .evict :: rest => do
    let _ ← (cacheOver settings width walk).runEvictions
    play rest
  | .clock time :: rest => do
    (Run.part Host.clock fun time h => { h with clock := time }).write time
    play rest

/-- the calls of a run -/
def calls : List Step → List Call
  | [] => []
  | .call q :: rest => q :: calls rest
  | .flush _ :: rest | .evict :: rest | .clock _ :: rest => calls rest

/-- what a host shows of its cache -/
def Viewed (h : Host) (v : Layer CacheState Unit) : Prop := h.cache = v.held ∧ h.table = v.beneath

theorem cacheOver_laws (perm : ∀ n as, (walk n as).Perm as) :
    (cacheOver settings width walk).Laws Viewed Eq never where
  inner _ _ := Table.rows_serve (fun _ _ hs => hs.2) (fun _ _ _ hs => ⟨hs.1, rfl⟩) width never
  read _ _ hs := ⟨_, hs, _, rfl, hs.1, rfl⟩
  write x v _ hs := ⟨{ v with held := x }, ⟨rfl, hs.2⟩, (), rfl, rfl⟩
  now v _ hs := ⟨v, hs, _, rfl, rfl⟩
  order as v _ hs := ⟨v, hs, _, rfl, perm _ as, rfl⟩

/-- what a host shows of the plain table that its cache and its table stand for -/
def Plain : Host → Table Column → Prop := Layer.Plain Viewed ()

/-- a run answers as the plain table, and the host stands for the plain table that is left -/
theorem play_agrees (perm : ∀ n as, (walk n as).Perm as) (steps : List Step)
    (whole : ∀ k col, .call (.deleteColumn k col) ∉ steps) (t : Table Column) :
    ∃ bs u, (calls steps).mapM (Table.plainRows width).call t = (.ok bs, u) ∧
      Yields Plain (play settings width walk steps) t fun as w => List.Forall₂ Answer.Agrees as bs ∧ w = u := by
  have laws := cacheOver_laws settings width walk perm
  induction steps generalizing t with
  | nil => exact ⟨[], t, rfl, yields_pure [] ⟨.nil, rfl⟩⟩
  | cons step rest ih =>
    have later : ∀ k col, .call (.deleteColumn k col) ∉ rest := fun k col hm => whole k col (List.mem_cons_of_mem _ hm)
    cases step with
    | call q =>
      have here : ∀ k col, q ≠ .deleteColumn k col := fun k col e => whole k col (e ▸ List.mem_cons_self)
      have lists := laws.rows_list (fun _ _ => Table.rows_list (fun _ _ hs => hs.2) width never) ()
      obtain ⟨b, t', plain, cached⟩ := (laws.serves ()).call lists width here t
      obtain ⟨bs, u, plainRest, cachedRest⟩ := ih later t'
      refine ⟨b :: bs, u, ?_, cached.bind ?_⟩
      · rw [calls, List.mapM_cons, bind_of_ok plain, bind_of_ok plainRest, pure_apply]
      · intro a _ hw
        obtain ⟨ha, rfl⟩ := hw
        refine cachedRest.bind ?_
        intro as _ hw
        obtain ⟨has, rfl⟩ := hw
        exact yields_pure _ ⟨.cons ha has, rfl⟩
    | flush empty =>
      obtain ⟨bs, u, plainRest, cachedRest⟩ := ih later t
      refine ⟨bs, u, plainRest, (laws.flush_plain empty () t).bind ?_⟩
      intro _ _ hw
      subst hw
      exact cachedRest
    | evict =>
      obtain ⟨bs, u, plainRest, cachedRest⟩ := ih later t
      refine ⟨bs, u, plainRest, (laws.runEvictions_plain () t).bind ?_⟩
      intro _ _ hw
      subst hw
      exact cachedRest
    | clock time =>
      obtain ⟨bs, u, plainRest, cachedRest⟩ := ih later t
      refine ⟨bs, u, plainRest, Yields.bind (P := fun _ w => w = t) ?_ ?_⟩
      · intro h hw
        obtain ⟨v, hs, stands⟩ := hw
        exact ⟨t, ⟨v, hs, stands⟩, (), rfl, rfl⟩
      · intro _ _ hw
        subst hw
        exact cachedRest

/-- **A cache is transparent.** Whatever the table at first, the settings of the cache and the orders in which it writes:
a run of calls, flushes, evictions and clock moves answers each call as the plain table does, and no call fails. -/
theorem cached_run_agrees (perm : ∀ n as, (walk n as).Perm as) (t : Table Column) (now : UInt64) (steps : List Step)
    (whole : ∀ k col, .call (.deleteColumn k col) ∉ steps) :
    ∃ cached plain h u, play settings width walk steps { table := t, clock := now } = (.ok cached, h) ∧
      (calls steps).mapM (Table.plainRows width).call t = (.ok plain, u) ∧ List.Forall₂ Answer.Agrees cached plain := by
  obtain ⟨plain, u, plainRun, cachedRun⟩ := play_agrees settings width walk perm steps whole t
  have start : Plain { table := t, clock := now } t := ⟨⟨{}, t, ()⟩, ⟨rfl, rfl⟩, .new t, rfl⟩
  obtain ⟨cached, h, _, run, _, agrees, _⟩ := cachedRun.run start
  exact ⟨cached, plain, h, u, run, plainRun, agrees⟩

/-- a put that is flushed, evicted and read through again, while marked cells are written in reverse -/
theorem cached_run_agrees_read_through :
    let steps : List Step := [.call (.put "a" 0 [1]), .call (.put "a" 1 [2]), .flush false, .clock 9, .evict,
      .call (.get "a" 0), .call (.put "b" 7 [3]), .call .keys, .call (.values "a")]
    ∃ cached plain h u, play { eviction := .always } 4 (fun _ => List.reverse) steps { table := .empty, clock := 5 } =
        (.ok cached, h) ∧
      (calls steps).mapM (Table.plainRows 4).call .empty = (.ok plain, u) ∧ List.Forall₂ Answer.Agrees cached plain :=
  cached_run_agrees { eviction := .always } 4 (fun _ => List.reverse) (fun _ as => List.reverse_perm as) .empty 5 _
    (fun k col => by simp)

end Host

end RowFiles
