/-
Stores in a table that many share, call by call.

A store sees the shared table and the rows that it remembers (`Wide.View`). Each of its calls asks the session to run one
statement at most, so it answers from what the store sees (`View.answer`) and leaves what follows from that (`View.after`),
or fails with the session's own reason and leaves everything as it was (`Wide.Laws.call`).

The session may be any whose statements act on a table or are refused without effect (`Session.Laws`). The session in
memory is one while it is not down, and it stays one behind a guard that refuses statements.
-/
import RowFiles.Proofs.Store.Tables
import RowFiles.Store.Wide

namespace RowFiles

open Run

/-! ## Runs that are refused for a known reason -/

namespace Run

variable {σ ν α β : Type} {R : σ → ν → Prop} {refused : σ → Error → Prop}

/-- the run ends well as in `Yields`, or is refused without effect, for a reason that the state had at the start -/
def Heeds (R : σ → ν → Prop) (refused : σ → Error → Prop) (x : Run σ α) (v : ν) (P : α → ν → Prop) : Prop :=
  ∀ s, R s v → (∃ a w, (x s).1 = .ok a ∧ R (x s).2 w ∧ P a w) ∨ ∃ e, refused s e ∧ (x s).1 = .error e ∧ R (x s).2 v

theorem Yields.heeds {x : Run σ α} {v : ν} {P : α → ν → Prop} (h : Yields R x v P) : Heeds R refused x v P := by
  intro s hs
  obtain ⟨w, hw, a, ran, hp⟩ := h s hs
  exact .inl ⟨a, w, ran, hw, hp⟩

theorem Heeds.yields {x : Run σ α} {v : ν} {P : α → ν → Prop} (h : Heeds R refused x v P) (calm : ∀ s e, ¬ refused s e) :
    Yields R x v P := by
  intro s hs
  rcases h s hs with ⟨a, w, ran, hw, hp⟩ | ⟨e, he, _⟩
  · exact ⟨w, hw, a, ran, hp⟩
  · exact absurd he (calm s e)

theorem Heeds.mono {x : Run σ α} {v : ν} {P Q : α → ν → Prop} (h : Heeds R refused x v P) (hq : ∀ a w, P a w → Q a w) :
    Heeds R refused x v Q := by
  intro s hs
  rcases h s hs with ⟨a, w, ran, hw, hp⟩ | failed
  · exact .inl ⟨a, w, ran, hw, hq a w hp⟩
  · exact .inr failed

/-- what follows cannot fail -/
theorem Heeds.bind {x : Run σ α} {f : α → Run σ β} {v : ν} {P : α → ν → Prop} {Q : β → ν → Prop}
    (hx : Heeds R refused x v P) (hf : ∀ a w, P a w → Yields R (f a) w Q) : Heeds R refused (x >>= f) v Q := by
  intro s hs
  rcases hx s hs with ⟨a, w, ran, hw, hp⟩ | ⟨e, he, ran, hv⟩
  · rw [bind_of_ok (Prod.ext ran rfl : x s = (.ok a, (x s).2))]
    obtain ⟨u, hu, b, ran, hq⟩ := hf a w hp _ hw
    exact .inl ⟨b, u, ran, hu, hq⟩
  · rw [bind_of_error (Prod.ext ran rfl : x s = (.error e, (x s).2))]
    exact .inr ⟨e, he, rfl, hv⟩

theorem Heeds.map {x : Run σ α} {f : α → β} {v : ν} {Q : β → ν → Prop}
    (h : Heeds R refused x v fun a w => Q (f a) w) : Heeds R refused (f <$> x) v Q := by
  rw [← bind_pure_comp]
  exact h.bind fun a w hq => yields_pure (f a) hq

/-- what comes first cannot fail, and changes no state in which a reason to refuse is looked for -/
theorem Heeds.after {x : Run σ α} {f : α → Run σ β} {v : ν} {a : α} {Q : β → ν → Prop}
    (hx : ∀ s, R s v → x s = (.ok a, s)) (hf : Heeds R refused (f a) v Q) : Heeds R refused (x >>= f) v Q := by
  intro s hs
  rw [bind_of_ok (hx s hs)]
  exact hf s hs

/-- made once a guard has let it through -/
theorem Heeds.guarded {before : Run σ Unit} {x : Run σ α} {v : ν} {P : α → ν → Prop} (hx : Yields R x v P)
    (hb : Heeds R refused before v fun _ w => w = v) : Heeds R refused (before >>= fun _ => x) v P := by
  refine hb.bind ?_
  rintro _ _ rfl
  exact hx

end Run

/-! ## Sessions -/

/-- the keys that begin as asked for are those of the table -/
def Session.Lists (head : String) (ks : List Key) (t : Table Int64) : Prop :=
  (ks.filter fun k => head.toList.isPrefixOf k.toList) = t.keys.filter fun k => head.toList.isPrefixOf k.toList

/-- what is asked of a session: each statement acts on the table that the state shows, or is refused without effect -/
structure Session.Laws {σ : Type} (s : Session (Run σ)) (R : σ → Table Int64 → Prop) (refused : σ → Error → Prop) :
    Prop where
  insert : ∀ k n v level t, Heeds R refused (s.insert k n v level) t fun _ u => u = t.put k n v
  select : ∀ k n level t, Heeds R refused (s.select k n level) t fun a u => a = t.get k n ∧ u = t
  selectRow : ∀ k level t, Heeds R refused (s.selectRow k level) t fun a u => a = t.values k ∧ u = t
  hasRow : ∀ k level t, Heeds R refused (s.hasRow k level) t fun a u => a = t.hasKey k ∧ u = t
  deleteRow : ∀ k level t, Heeds R refused (s.deleteRow k level) t fun _ u => u = t.delete k
  deleteCell : ∀ k n level t, Heeds R refused (s.deleteCell k n level) t fun _ u => u = t.deleteColumn k n
  keys : ∀ head level t, Heeds R refused (s.keys head level) t fun ks u => Session.Lists head ks t ∧ u = t

/-- the statements of a session, each run once `before` has let it through -/
def Session.guarded {m : Type → Type} [Monad m] (s : Session m) (before : Statement → m Unit) : Session m where
  insert k n v level := do before .insert; s.insert k n v level
  select k n level := do before .select; s.select k n level
  selectRow k level := do before .selectRow; s.selectRow k level
  hasRow k level := do before .hasRow; s.hasRow k level
  deleteRow k level := do before .deleteRow; s.deleteRow k level
  deleteCell k n level := do before .deleteCell; s.deleteCell k n level
  keys head level := do before .keys; s.keys head level

/-- nothing is refused -/
def unrefused {σ : Type} : σ → Error → Prop := fun _ _ => False

namespace Session.Laws

variable {σ : Type} {s : Session (Run σ)} {R : σ → Table Int64 → Prop}

theorem guarded {refused : σ → Error → Prop} {before : Statement → Run σ Unit} (laws : s.Laws R unrefused)
    (hb : ∀ st t, Heeds R refused (before st) t fun _ u => u = t) : (s.guarded before).Laws R refused where
  insert k n v level t := .guarded ((laws.insert k n v level t).yields fun _ _ => id) (hb _ t)
  select k n level t := .guarded ((laws.select k n level t).yields fun _ _ => id) (hb _ t)
  selectRow k level t := .guarded ((laws.selectRow k level t).yields fun _ _ => id) (hb _ t)
  hasRow k level t := .guarded ((laws.hasRow k level t).yields fun _ _ => id) (hb _ t)
  deleteRow k level t := .guarded ((laws.deleteRow k level t).yields fun _ _ => id) (hb _ t)
  deleteCell k n level t := .guarded ((laws.deleteCell k n level t).yields fun _ _ => id) (hb _ t)
  keys head level t := .guarded ((laws.keys head level t).yields fun _ _ => id) (hb _ t)

end Session.Laws

namespace SessionTable

variable {σ : Type} {get : σ → SessionTable} {set : SessionTable → σ → σ} {R : σ → Table Int64 → Prop}

/-- a session in memory that is not down -/
structure Open (get : σ → SessionTable) (set : SessionTable → σ → σ) (R : σ → Table Int64 → Prop) : Prop where
  up : ∀ s t, R s t → (get s).down = none
  table : ∀ s t, R s t → (get s).table = t
  get_set : ∀ x s, get (set x s) = x
  set_set : ∀ x y s, set y (set x s) = set y s
  set : ∀ s t x, R s t → x.down = none → R (set x s) x.table

/-- a statement answers from the table and changes it -/
theorem Open.run_yields {α : Type} (h : Open get set R) (st : Statement) (level : Consistency)
    (f : Table Int64 → α × Table Int64) (t : Table Int64) :
    Yields R (run (Run.part get set) st level f) t fun a u => a = (f t).1 ∧ u = (f t).2 := by
  intro s hs
  have ran : run (Run.part get set) st level f s =
      (.ok (f t).1, set { get s with log := (st, level) :: (get s).log, table := (f t).2 } s) := by
    rw [run, bind_of_ok (part_modify get set _ s), bind_of_ok (part_read get set _)]
    simp only [h.get_set, h.up s t hs]
    rw [bind_of_ok (part_write get set _ _), h.set_set, h.table s t hs]
    rfl
  rw [ran]
  exact ⟨(f t).2, h.set s _ _ hs (h.up s t hs), (f t).1, rfl, rfl, rfl⟩

/-- **A session in memory** acts on its table while it is not down. -/
theorem Open.laws (h : Open get set R) : (session (Run.part get set)).Laws R unrefused where
  insert k n v _ t := ((h.run_yields .insert _ (fun t => ((), t.put k n v)) t).mono fun _ _ hw => hw.2).heeds
  select k n _ t := (h.run_yields .select _ (fun t => (t.get k n, t)) t).heeds
  selectRow k _ t := (h.run_yields .selectRow _ (fun t => (t.values k, t)) t).heeds
  hasRow k _ t := (h.run_yields .hasRow _ (fun t => (t.hasKey k, t)) t).heeds
  deleteRow k _ t := ((h.run_yields .deleteRow _ (fun t => ((), t.delete k)) t).mono fun _ _ hw => hw.2).heeds
  deleteCell k n _ t := ((h.run_yields .deleteCell _ (fun t => ((), t.deleteColumn k n)) t).mono fun _ _ hw => hw.2).heeds
  keys head level t := Yields.heeds fun s hs => by
    let begins : Key → Bool := fun k => head.toList.isPrefixOf k.toList
    have asked : (session (Run.part get set)).keys head level s =
        run (Run.part get set) .keys level (fun t => (if (get s).narrow then t.keys.filter begins else t.keys, t)) s :=
      bind_of_ok (part_read get set s)
    rw [asked]
    refine Yields.mono (h.run_yields .keys level _ t) ?_ s hs
    rintro _ _ ⟨rfl, rfl⟩
    refine ⟨?_, rfl⟩
    cases (get s).narrow with
    | true => simp [Session.Lists, begins]
    | false => rfl

end SessionTable

namespace Wide

/-! ## Keys of a space -/

section

variable {space : String}

theorem spaceHead_begins (k : Key) : (spaceHead space).toList <+: (spaceHead space ++ k).toList := by
  rw [String.toList_append]
  exact List.prefix_append _ _

/-- the keys of a space are those of the table that begin as it says, less the beginning -/
theorem ownKey?_eq_some {q k : Key} : ownKey? space q = some k ↔ q = spaceHead space ++ k := by
  rw [ownKey?]
  constructor
  · intro h
    split at h
    next begins =>
      obtain ⟨rest, e⟩ := List.isPrefixOf_iff_prefix.1 begins
      rw [← e, List.drop_left, Option.some.injEq] at h
      rw [← String.toList_inj, ← e, ← h]
      simp
    next => cases h
  · rintro rfl
    rw [if_pos (List.isPrefixOf_iff_prefix.2 (spaceHead_begins k)), String.toList_append, List.drop_left,
      String.ofList_toList]

/-- what is listed of a space is decided by the keys that begin as it says -/
theorem filterMap_ownKey? (space : String) (ks : List Key) :
    ks.filterMap (ownKey? space) =
      (ks.filter fun k => (spaceHead space).toList.isPrefixOf k.toList).filterMap (ownKey? space) := by
  rw [List.filterMap_filter]
  congr 1
  funext k
  split_ifs with own
  · rfl
  · exact if_neg own

end

/-! ## What a store sees -/

/-- the shared table, and the rows that a store has seen to exist -/
structure View where
  table : Table Int64
  known : KnownRows

namespace View

variable (space : String) (x : View)

/-- what a call answers if no statement is refused -/
def answer : Call → Answer
  | .get k c => .cell (x.table.get (spaceHead space ++ k) c.toInt64)
  | .hasKey k => .flag (x.known.contains (spaceHead space ++ k) || x.table.hasKey (spaceHead space ++ k))
  | .values k => .values (x.table.values (spaceHead space ++ k))
  | .keys => .keys (x.table.keys.filterMap (ownKey? space))
  | .put .. | .delete _ | .deleteColumn .. | .sync => .done

/-- what a store sees after the call -/
def after : Call → View
  | .put k c v => ⟨x.table.put (spaceHead space ++ k) c.toInt64 v, x.known.insert (spaceHead space ++ k)⟩
  | .delete k => ⟨x.table.delete (spaceHead space ++ k), x.known.erase (spaceHead space ++ k)⟩
  | .deleteColumn k c => ⟨x.table.deleteColumn (spaceHead space ++ k) c.toInt64, x.known.erase (spaceHead space ++ k)⟩
  | .hasKey k =>
    if x.known.contains (spaceHead space ++ k) then x
    else if x.table.hasKey (spaceHead space ++ k) then { x with known := x.known.insert (spaceHead space ++ k) }
    else x
  | .get .. | .values _ | .keys | .sync => x

end View

/-- what a store is built on -/
structure Laws {σ : Type} (w : Wide (Run σ)) (R : σ → View → Prop) (refused : σ → Error → Prop) : Prop where
  session : ∀ known, w.session.Laws (fun s t => R s ⟨t, known⟩) refused
  read : ∀ s x, R s x → w.known.read s = (.ok x.known, s)
  write : ∀ known x, Yields R (w.known.write known) x fun _ y => y = { x with known := known }

namespace Laws

variable {σ : Type} {w : Wide (Run σ)} {R : σ → View → Prop} {refused : σ → Error → Prop}

theorem modify (laws : w.Laws R refused) (f : KnownRows → KnownRows) (x : View) :
    Yields R (w.known.modify f) x fun _ y => y = { x with known := f x.known } := by
  intro s hs
  rw [Part.modify, bind_of_ok (laws.read s x hs)]
  exact laws.write _ x s hs

/-- a statement whose session is known to act on the table, seen with what the store remembers -/
theorem statement {α : Type} {st : Run σ α} {x : View} {P : α → Table Int64 → Prop}
    (h : Heeds (fun s t => R s ⟨t, x.known⟩) refused st x.table P) :
    Heeds R refused st x fun a y => ∃ t, P a t ∧ y = { x with table := t } := by
  intro s hs
  rcases h s hs with ⟨a, t, ran, ht, hp⟩ | failed
  · exact .inl ⟨a, ⟨t, x.known⟩, ran, ht, t, hp, rfl⟩
  · exact .inr failed

/-- a statement after which the store remembers other rows -/
theorem remembered {st : Run σ Unit} {x : View} {u : Table Int64}
    (laws : w.Laws R refused) (h : Heeds (fun s t => R s ⟨t, x.known⟩) refused st x.table fun _ t => t = u)
    (f : KnownRows → KnownRows) :
    Heeds R refused (st >>= fun _ => w.known.modify f) x fun _ y => y = ⟨u, f x.known⟩ := by
  refine (statement h).bind ?_
  rintro _ _ ⟨_, rfl, rfl⟩
  exact laws.modify f _

/-- **A call** answers from what the store sees, or fails as the session did and leaves what is seen as it was. -/
theorem call (laws : w.Laws R refused) (q : Call) (x : View) :
    Heeds R refused (w.rows.call q) x fun a y => a = x.answer w.settings.space q ∧ y = x.after w.settings.space q := by
  cases q with
  | put k c v =>
    refine (laws.remembered ((laws.session _).insert _ _ _ _ _) _).bind ?_
    rintro _ _ rfl
    exact yields_pure _ ⟨rfl, rfl⟩
  | get k c =>
    refine Heeds.map ((statement ((laws.session _).select _ _ _ _)).mono ?_)
    rintro _ _ ⟨_, ⟨rfl, rfl⟩, rfl⟩
    exact ⟨rfl, rfl⟩
  | delete k =>
    refine (laws.remembered ((laws.session _).deleteRow _ _ _) _).bind ?_
    rintro _ _ rfl
    exact yields_pure _ ⟨rfl, rfl⟩
  | deleteColumn k c =>
    refine (laws.remembered ((laws.session _).deleteCell _ _ _ _) _).bind ?_
    rintro _ _ rfl
    exact yields_pure _ ⟨rfl, rfl⟩
  | hasKey k =>
    refine Heeds.map (Heeds.after (fun s hs => laws.read s x hs) ?_)
    rw [View.answer, View.after, tableKey]
    cases x.known.contains (spaceHead w.settings.space ++ k) with
    | true => exact (yields_pure true ⟨rfl, rfl⟩).heeds
    | false =>
      refine (statement ((laws.session _).hasRow _ _ _)).bind ?_
      rintro _ _ ⟨_, ⟨rfl, rfl⟩, rfl⟩
      cases x.table.hasKey (spaceHead w.settings.space ++ k) with
      | true =>
        refine (laws.modify _ x).step ?_
        exact yields_pure true ⟨rfl, rfl⟩
      | false => exact yields_pure false ⟨rfl, rfl⟩
  | values k =>
    refine Heeds.map ((statement ((laws.session _).selectRow _ _ _)).mono ?_)
    rintro _ _ ⟨_, ⟨rfl, rfl⟩, rfl⟩
    exact ⟨rfl, rfl⟩
  | keys =>
    refine Heeds.map ((statement ((laws.session _).keys _ _ _)).bind ?_)
    rintro _ _ ⟨_, ⟨listed, rfl⟩, rfl⟩
    refine yields_pure _ ⟨?_, rfl⟩
    rw [filterMap_ownKey?, listed, ← filterMap_ownKey?]
    rfl
  | sync => exact (yields_pure Answer.done ⟨rfl, rfl⟩).heeds

end Laws

end Wide

end RowFiles
