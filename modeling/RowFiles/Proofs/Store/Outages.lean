/-
A write-back cache over a table that may refuse puts.

The table of a host refuses puts as it likes, each without effect. Runs on the host go on whatever their steps answer:
calls, flushes, evictions and clock moves, in any order, with marked cells written in any order.

- `after_stands`: after any run, the cache and the table stand for the plain table that took every put and every delete,
  the puts whose flush failed included.
- `no_put_is_lost`: so marked cells are cached, other cached cells are the table's, and gets answer from the plain table.
  A flush or sync that ends well leaves no marks and the plain table beneath, and the next flush puts nothing. While the
  table refuses nothing, a flush ends well.

Left out is the removal of single cells, which a cache may answer by deleting the whole row beneath.
-/
import RowFiles.Proofs.Store.Transparency

namespace RowFiles

open Run

structure Frail where
  cache : CacheState := {}
  table : Table Column
  clock : UInt64 := 0
  /-- how often an order has been drawn -/
  drawn : Nat := 0
  /-- how many puts the table has been asked for -/
  asked : Nat := 0

namespace Frail

/-! ## A host and its steps -/

/-- the order drawn at the `n`th time for some cells is `walk n` of them -/
def draw (walk : Nat → List (Address Column) → List (Address Column)) (as : List (Address Column)) :
    Run Frail (List (Address Column)) :=
  fun h => (.ok (walk h.drawn as), { h with drawn := h.drawn + 1 })

/-- the `n`th put is refused if `refuse n` gives a reason; other calls are let through -/
def ask (refuse : Nat → Option Error) : Call → Run Frail Unit
  | .put .. => fun h =>
    (match refuse h.asked with | some e => .error e | none => .ok (), { h with asked := h.asked + 1 })
  | _ => pure ()

variable (settings : CacheSettings) (width : Nat) (refuse : Nat → Option Error)
  (walk : Nat → List (Address Column) → List (Address Column))

/-- the cache of a host -/
def cacheOver : Cache (Run Frail) where
  inner := (Table.rows (Run.part Frail.table fun t h => { h with table := t }) width).guarded (ask refuse)
  settings := settings
  state := Run.part Frail.cache fun x h => { h with cache := x }
  now := (Run.part Frail.clock fun time h => { h with clock := time }).read
  order := draw walk

def act : Host.Step → Run Frail Unit
  | .call q => do let _ ← (cacheOver settings width refuse walk).rows.call q
  | .flush empty => (cacheOver settings width refuse walk).flush empty
  | .evict => do let _ ← (cacheOver settings width refuse walk).runEvictions
  | .clock time => (Run.part Frail.clock fun time h => { h with clock := time }).write time

/-- the host after some steps, whatever each of them answers -/
def after (steps : List Host.Step) (h : Frail) : Frail :=
  steps.foldl (fun h step => (act settings width refuse walk step h).2) h

/-- the plain table after a step that was taken at once -/
def plain (t : Table Column) : Host.Step → Table Column
  | .call q => ((Table.plainRows width).call q t).2
  | _ => t

/-! ## What a host stands for -/

/-- what a host shows of its cache and its table; on a calm host no put will be refused from now on -/
def Viewed (calm : Prop) (h : Frail) (v : Layer CacheState Unit) : Prop :=
  h.cache = v.held ∧ h.table = v.beneath ∧ (calm → ∀ n ≥ h.asked, refuse n = none)

/-- the calls that may fail: puts, unless the host is calm -/
def Refusable (calm : Prop) (q : Call) : Prop := ¬ calm ∧ ∃ k col u, q = .put k col u

variable {settings width refuse walk} {calm : Prop}

theorem not_refusable {q : Call} (h : ∀ k col u, q ≠ .put k col u) : ¬ Refusable calm q := by
  rintro ⟨_, k, col, u, e⟩
  exact h k col u e

theorem ask_tries (q : Call) (x : CacheState) (t : Table Column) :
    Tries (fun h t => Viewed refuse calm h ⟨x, t, ()⟩) (ask refuse q) t (Refusable calm q) fun _ u => u = t := by
  intro h hs
  obtain ⟨cache, table, quiet⟩ := hs
  cases q with
  | put k col u =>
    have later : calm → ∀ n ≥ h.asked + 1, refuse n = none := fun c n hn => quiet c n (by omega)
    refine ⟨t, ⟨cache, table, later⟩, ?_⟩
    cases refused : refuse h.asked with
    | none => exact .inl ⟨(), by simp only [ask, refused], rfl⟩
    | some e =>
      have storm : ¬ calm := fun c => by
        rw [quiet c h.asked (Nat.le_refl _)] at refused
        cases refused
      exact .inr ⟨⟨storm, k, col, u, rfl⟩, ⟨e, by simp only [ask, refused]⟩, rfl⟩
  | _ => exact ⟨t, ⟨cache, table, quiet⟩, .inl ⟨(), rfl, rfl⟩⟩

variable (settings width refuse calm) in
theorem cacheOver_laws (perm : ∀ n as, (walk n as).Perm as) :
    (cacheOver settings width refuse walk).Laws (Viewed refuse calm) Eq (Refusable calm) where
  inner x _ := (Table.rows_serve (fun _ _ hs => hs.2.1) (fun _ _ _ hs => ⟨hs.1, rfl, hs.2.2⟩) width _).guarded
    fun q => ask_tries q x
  read _ _ hs := ⟨_, hs, _, rfl, hs.1, rfl⟩
  write x v _ hs := ⟨{ v with held := x }, ⟨rfl, hs.2⟩, (), rfl, rfl⟩
  now v _ hs := ⟨v, hs, _, rfl, rfl⟩
  order as v _ hs := ⟨v, hs, _, rfl, perm _ as, rfl⟩

theorem cacheOver_lists (x : CacheState) (r : Unit) :
    (cacheOver settings width refuse walk).inner.Lists (fun h t => Viewed refuse calm h ⟨x, t, r⟩) (Refusable calm) :=
  (Table.rows_list (fun _ _ hs => hs.2.1) width _).guarded fun q => ask_tries q x

/-- the plain table that the cache and the table of a host stand for -/
def Plain (refuse : Nat → Option Error) (calm : Prop) : Frail → Table Column → Prop := Layer.Plain (Viewed refuse calm) ()

/-- a host that is not known to be calm shows no less than one that is -/
theorem Plain.calm_of {h : Frail} {t : Table Column} (stands : Plain refuse False h t)
    (quiet : ∀ n ≥ h.asked, refuse n = none) : Plain refuse True h t := by
  obtain ⟨v, ⟨cache, table, _⟩, coherent⟩ := stands
  exact ⟨v, ⟨cache, table, fun _ => quiet⟩, coherent⟩

/-! ## Each step takes its put or delete, whether it ends well or not -/

theorem call_stands (perm : ∀ n as, (walk n as).Perm as) {q : Call} (whole : ∀ k col, q ≠ .deleteColumn k col)
    (t : Table Column) :
    Ends (Plain refuse calm) ((cacheOver settings width refuse walk).rows.call q) t fun _ u =>
      u = ((Table.plainRows width).call q t).2 := by
  have laws := cacheOver_laws settings width refuse calm perm
  cases q with
  | put k col u =>
    refine Ends.then_pure (Layer.ends_plain fun v h => (laws.put k col u h).mono fun _ w hw => ?_)
    exact ⟨_, hw.1, rfl⟩
  | get k col =>
    refine Ends.map_answer (Layer.ends_plain fun v h => ?_)
    refine Ends.mono ((laws.get k col h).yields (not_refusable nofun)) fun _ w hw => ?_
    obtain ⟨_, _, stands, _⟩ := hw
    exact ⟨_, stands, rfl⟩
  | delete k =>
    refine Ends.then_pure (Layer.ends_plain fun v h => ?_)
    refine Ends.mono (laws.delete k h (not_refusable nofun)) fun _ w hw => ?_
    obtain ⟨_, _, stands⟩ := hw
    exact ⟨_, stands, congrArg Prod.snd (Table.plainRows_delete width k t).symm⟩
  | deleteColumn k col => exact absurd rfl (whole k col)
  | hasKey k =>
    refine Ends.map_answer (Layer.ends_plain fun v h => ?_)
    refine Ends.mono ((laws.hasKey k h).yields (not_refusable nofun)) fun _ w hw => ?_
    obtain ⟨_, _, stands, _⟩ := hw
    exact ⟨_, stands, rfl⟩
  | values k =>
    refine Ends.map_answer (Layer.ends_plain fun v h => (laws.values k h).mono fun _ w hw => ?_)
    exact ⟨_, hw.1, rfl⟩
  | keys =>
    refine Ends.map_answer (Layer.ends_plain fun v h => ?_)
    refine Ends.mono ((laws.keys cacheOver_lists h).yields (not_refusable nofun)) fun _ w hw => ?_
    obtain ⟨_, _, stands, _⟩ := hw
    exact ⟨_, stands, rfl⟩
  | sync =>
    refine Ends.then_pure (Layer.ends_plain fun v h => (laws.sync h).mono fun _ w hw => ?_)
    exact ⟨_, hw.1, rfl⟩

theorem act_stands (perm : ∀ n as, (walk n as).Perm as) {step : Host.Step}
    (whole : ∀ k col, step ≠ .call (.deleteColumn k col)) (t : Table Column) :
    Ends (Plain refuse calm) (act settings width refuse walk step) t fun _ u => u = plain width t step := by
  have laws := cacheOver_laws settings width refuse calm perm
  cases step with
  | call q => exact (call_stands perm (fun k col e => whole k col (by rw [e])) t).then_pure
  | flush empty => exact Layer.ends_plain fun v h => (laws.flush empty h).mono fun _ w hw => ⟨_, hw.1, rfl⟩
  | evict =>
    refine Ends.then_pure (Layer.ends_plain fun v h => Ends.mono (laws.runEvictions h) fun _ w hw => ?_)
    obtain ⟨_, _, stands⟩ := hw
    exact ⟨_, stands, rfl⟩
  | clock time =>
    intro h stands
    exact ⟨t, stands, rfl⟩

/-- **A run keeps every put and delete.** After any steps, the cache and the table stand for the plain table that has taken
all of them at once. -/
theorem after_stands (perm : ∀ n as, (walk n as).Perm as) (steps : List Host.Step)
    (whole : ∀ k col, .call (.deleteColumn k col) ∉ steps) {h : Frail} {t : Table Column}
    (stands : Plain refuse False h t) :
    Plain refuse False (after settings width refuse walk steps h) (steps.foldl (plain width) t) := by
  induction steps generalizing h t with
  | nil => exact stands
  | cons step steps ih =>
    have here : ∀ k col, step ≠ .call (.deleteColumn k col) := fun k col e => whole k col (e ▸ List.mem_cons_self)
    have later : ∀ k col, .call (.deleteColumn k col) ∉ steps := fun k col hm => whole k col (List.mem_cons_of_mem _ hm)
    obtain ⟨u, moved, rfl⟩ := act_stands perm here t h stands
    exact ih later moved

/-! ## What is promised of a host -/

variable (settings width refuse) in
/-- a flush with nothing to write asks the table for nothing -/
theorem flush_unmarked (perm : ∀ n as, (walk n as).Perm as) (empty : Bool) {h : Frail} (unmarked : ∀ a, a ∉ h.cache.marks) :
    ∃ h', (cacheOver settings width refuse walk).flush empty h = (.ok (), h') ∧ h'.asked = h.asked ∧
      h'.table = h.table := by
  have nothing : h.cache.marks.toList = [] := by
    refine List.eq_nil_iff_forall_not_mem.2 fun a ha => ?_
    exact unmarked a (Std.ExtTreeSet.mem_toList.1 ha)
  have drawn : walk h.drawn [] = [] := (perm h.drawn []).eq_nil
  refine ⟨{ h with
    cache := if empty then h.cache.unmarkAll.dropClean else h.cache.unmarkAll
    drawn := h.drawn + 1 }, ?_, rfl, rfl⟩
  cases empty with
  | false => simp [Cache.flush, cacheOver, bind_apply, draw, nothing, drawn, Cache.writeOut]
  | true => simp [Cache.flush, cacheOver, bind_apply, draw, nothing, drawn, Cache.writeOut]

variable (settings width refuse walk) in
/-- no put and no delete of those that made the plain table `p` is lost -/
structure Intact (h : Frail) (p : Table Column) : Prop where
  /-- marked cells are cached -/
  marked : ∀ a ∈ h.cache.marks, ∃ v, h.cache.value? a = some v
  /-- other cached cells are the table's -/
  clean : ∀ a v, a ∉ h.cache.marks → h.cache.value? a = some v → h.table.get a.key a.column = some v
  read : ∀ k col, ∃ h', (cacheOver settings width refuse walk).get k col h = (.ok (p.get k col), h')
  /-- a flush or sync that ends well has written all, and the next flush has nothing to write -/
  written : ∀ x ∈ [(cacheOver settings width refuse walk).flush false, (cacheOver settings width refuse walk).flush true,
    (cacheOver settings width refuse walk).rows.sync], ∀ h', x h = (.ok (), h') →
      (∀ a, a ∉ h'.cache.marks) ∧ h'.table = p ∧
        ∀ empty, ∃ h'', (cacheOver settings width refuse walk).flush empty h' = (.ok (), h'') ∧ h''.asked = h'.asked
  /-- a flush ends well if the table refuses nothing from now on -/
  retried : (∀ n ≥ h.asked, refuse n = none) →
    ∀ empty, ∃ h', (cacheOver settings width refuse walk).flush empty h = (.ok (), h')

/-- a flush or sync that ends well leaves no marks, and the plain table beneath -/
theorem Plain.written (perm : ∀ n as, (walk n as).Perm as) {h h' : Frail} {p : Table Column}
    (stands : Plain refuse False h p) {x : Run Frail Unit}
    (hx : x ∈ [(cacheOver settings width refuse walk).flush false, (cacheOver settings width refuse walk).flush true,
      (cacheOver settings width refuse walk).rows.sync]) (ok : x h = (.ok (), h')) :
    (∀ a, a ∉ h'.cache.marks) ∧ h'.table = p := by
  have laws := cacheOver_laws settings width refuse False perm
  obtain ⟨v, shown, coherent⟩ := stands
  have ends : Ends (Viewed refuse False) x v fun o w => o = .ok () → (∀ a, a ∉ w.held.marks) ∧ w.StandsFor p () := by
    simp only [List.mem_cons, List.not_mem_nil, or_false] at hx
    rcases hx with rfl | rfl | rfl
    · refine (laws.flush false coherent).mono fun o w hw same => ?_
      rcases hw with ⟨after, ⟨_, unmarked⟩ | ⟨⟨e, rfl⟩, _⟩⟩
      · exact ⟨unmarked, after⟩
      · cases same
    · refine (laws.flush true coherent).mono fun o w hw same => ?_
      rcases hw with ⟨after, ⟨_, unmarked⟩ | ⟨⟨e, rfl⟩, _⟩⟩
      · exact ⟨unmarked, after⟩
      · cases same
    · refine (laws.sync coherent).mono fun o w hw same => ?_
      rcases hw with ⟨after, ⟨_, unmarked⟩ | ⟨⟨e, rfl⟩, _⟩⟩
      · exact ⟨unmarked, after⟩
      · cases same
  obtain ⟨w, shown, holds⟩ := ends h shown
  rw [ok] at shown holds
  obtain ⟨unmarked, after⟩ := holds rfl
  obtain ⟨cache, table, _⟩ := shown
  dsimp only at cache table
  rw [cache, table]
  exact ⟨unmarked, after.coherent.eq_of_unmarked unmarked⟩

theorem Plain.intact (perm : ∀ n as, (walk n as).Perm as) {h : Frail} {p : Table Column}
    (stands : Plain refuse False h p) : Intact settings width refuse walk h p := by
  have laws (calm : Prop) := cacheOver_laws settings width refuse calm perm
  obtain ⟨v, ⟨cache, table, _⟩, coherent⟩ := id stands
  constructor
  · intro a ha
    rw [cache] at ha ⊢
    exact coherent.coherent.kept a (.inl ha)
  · intro a u ha hu
    rw [cache] at ha hu
    rw [table, coherent.coherent.clean a ha List.not_mem_nil]
    exact coherent.coherent.shadow a u hu
  · intro k col
    have reads := ((laws False).get k col coherent).yields (not_refusable nofun)
    obtain ⟨_, h', _, run, _, _, rfl⟩ := reads.run ⟨cache, table, nofun⟩
    exact ⟨h', run⟩
  · intro x hx h' ok
    obtain ⟨unmarked, same⟩ := stands.written perm hx ok
    refine ⟨unmarked, same, fun empty => ?_⟩
    obtain ⟨h'', run, asked, _⟩ := flush_unmarked settings width refuse perm empty unmarked
    exact ⟨h'', run, asked⟩
  · intro quiet empty
    obtain ⟨w, shown, after⟩ := stands.calm_of quiet
    obtain ⟨_, _, _, ⟨ok, _⟩ | ⟨_, k, col, u, storm, _⟩⟩ := (laws True).flush empty after h shown
    · exact ⟨_, Prod.ext ok rfl⟩
    · exact absurd trivial storm

/-- **No pending put is lost.** Whatever the settings, the refusals and the orders of writing: after any run on a host, no
put and no delete is lost, the puts among them whose flush failed included. -/
theorem no_put_is_lost (perm : ∀ n as, (walk n as).Perm as) (t : Table Column) (now : UInt64) (steps : List Host.Step)
    (whole : ∀ k col, .call (.deleteColumn k col) ∉ steps) :
    Intact settings width refuse walk (after settings width refuse walk steps { table := t, clock := now })
      (steps.foldl (plain width) t) := by
  have start : Plain refuse False { table := t, clock := now } t := ⟨⟨{}, t, ()⟩, ⟨rfl, rfl, nofun⟩, .new t, rfl⟩
  exact (after_stands perm steps whole start).intact perm

/-- every put is flushed at once, and the table refuses the second: its cell stays marked, the other one is evicted -/
theorem no_put_is_lost_after_refusal :
    let refuse : Nat → Option Error := fun n => if n = 1 then some (.backend "down") else none
    let steps : List Host.Step := [.call (.put "a" 0 [1]), .call (.put "a" 1 [2]), .evict]
    let h := after { autoFlush := true, eviction := .always } 4 refuse (fun _ => List.reverse) steps
      { table := .empty, clock := 5 }
    h.cache.table.toList = [(⟨"a", 1⟩, [2])] ∧ h.cache.marks.toList = [⟨"a", 1⟩] ∧ h.table.toList = [(⟨"a", 0⟩, [1])] ∧
      Intact { autoFlush := true, eviction := .always } 4 refuse (fun _ => List.reverse) h
        ((Table.empty.put "a" 0 [1]).put "a" 1 [2]) := by
  intro refuse steps h
  refine ⟨by decide +kernel, by decide +kernel, by decide +kernel, ?_⟩
  exact no_put_is_lost (fun _ as => List.reverse_perm as) .empty 5 steps (fun k col => by simp [steps])

end Frail

end RowFiles
