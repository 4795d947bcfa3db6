/-
How runs end, seen through a relation. `R s v` says that the state `s` shows `v`: `v` keeps of a state what a statement
is about, and `R` may hold an invariant as well. `Run.Ends R x v Q` says that from every state that shows `v` the run `x`
ends with an outcome and in a state that shows some `w`, such that `Q` holds of the outcome and of `w`. A run always ends,
so this is total; whether it ends well or fails is up to `Q`.

`Run.Yields` is the case of a run that cannot fail, `Run.Tries` that of a call which may fail without effect,
`Run.Stops` that of a run which may stop halfway, and `Run.Fails` that of a run which cannot end well. `Run.Breaks` tells
both ends of a run that may break off half done, and which call was refused. The rules follow the shape of a program: one
for each way of putting runs together.
-/
import RowFiles.Run

namespace RowFiles.Run

variable {σ τ ν α β : Type} {R : σ → ν → Prop}

/-- from every state that shows `v`, the run ends with an outcome and something shown of which `Q` holds -/
def Ends (R : σ → ν → Prop) (x : Run σ α) (v : ν) (Q : Except Error α → ν → Prop) : Prop :=
  ∀ s, R s v → ∃ w, R (x s).2 w ∧ Q (x s).1 w

/-- from every state that shows `v`, the run ends well, with a value and something shown of which `P` holds -/
def Yields (R : σ → ν → Prop) (x : Run σ α) (v : ν) (P : α → ν → Prop) : Prop :=
  Ends R x v fun r w => ∃ a, r = .ok a ∧ P a w

/-- the run ends well as in `Yields`, or fails, if it may, and leaves what is shown as it was -/
def Tries (R : σ → ν → Prop) (x : Run σ α) (v : ν) (may : Prop) (P : α → ν → Prop) : Prop :=
  Ends R x v fun r w => (∃ a, r = .ok a ∧ P a w) ∨ may ∧ (∃ e, r = .error e) ∧ w = v

/-- the run ends well as in `Yields`, or stops halfway, if it may, and leaves something shown of which `E` holds -/
def Stops (R : σ → ν → Prop) (x : Run σ α) (v : ν) (may : Prop) (P : α → ν → Prop) (E : ν → Prop) : Prop :=
  Ends R x v fun r w => (∃ a, r = .ok a ∧ P a w) ∨ may ∧ (∃ e, r = .error e) ∧ E w

/-- from every state that shows `v`, the run fails for the reason `e` -/
def Fails (R : σ → ν → Prop) (x : Run σ α) (v : ν) (e : Error) : Prop := ∀ s, R s v → (x s).1 = .error e

variable {κ : Type}

/-- the run ends well, with a value and something shown of which `P` holds, or fails, with a reason and something shown of
which `E` holds. `R none` shows states as long as no call is refused, and `R (some q)` those in which the call `q` is. -/
def Breaks (R : Option κ → σ → ν → Prop) (x : Run σ α) (v : ν) (P : α → ν → Prop) (E : Option κ → Error → ν → Prop) :
    Prop :=
  ∀ s, R none s v → (∃ a w, (x s).1 = .ok a ∧ R none (x s).2 w ∧ P a w) ∨
    ∃ e q w, (x s).1 = .error e ∧ R q (x s).2 w ∧ E q e w

/-- the call `q` answers `a` and leaves what shows `w`, or is refused without effect, for a reason that may be given -/
def Answers (R : Option κ → σ → ν → Prop) (x : Run σ α) (q : κ) (may : Error → Prop) (v : ν) (a : α) (w : ν) : Prop :=
  Breaks R x v (fun b u => b = a ∧ u = w) fun c e u => c = some q ∧ may e ∧ u = v

/-! ## Rules for both outcomes -/

theorem Ends.mono {x : Run σ α} {v : ν} {P Q : Except Error α → ν → Prop} (h : Ends R x v P)
    (hq : ∀ r w, P r w → Q r w) : Ends R x v Q := by
  intro s hs
  obtain ⟨w, hw, hp⟩ := h s hs
  exact ⟨w, hw, hq _ _ hp⟩

/-- a state shows no two things -/
def Functional (R : σ → ν → Prop) : Prop := ∀ s v w, R s v → R s w → v = w

/-- two facts about a run speak of the same thing shown, if there is only one -/
theorem Ends.both {x : Run σ α} {v : ν} {P Q : Except Error α → ν → Prop} (unique : Functional R) (h : Ends R x v P)
    (h' : Ends R x v Q) : Ends R x v fun o w => P o w ∧ Q o w := by
  intro s hs
  obtain ⟨w, hw, hp⟩ := h s hs
  obtain ⟨w', hw', hq⟩ := h' s hs
  obtain rfl := unique _ _ _ hw hw'
  exact ⟨w, hw, hp, hq⟩

theorem ends_pure (a : α) {v : ν} {Q : Except Error α → ν → Prop} (h : Q (.ok a) v) : Ends R (pure a) v Q :=
  fun _ hs => ⟨v, hs, h⟩

theorem ends_throw (e : Error) {v : ν} {Q : Except Error α → ν → Prop} (h : Q (.error e) v) :
    Ends R (throw e : Run σ α) v Q :=
  fun _ hs => ⟨v, hs, h⟩

/-- the second run starts from what the first one shows; a failure of the first is the outcome of both -/
theorem Ends.bind {x : Run σ α} {f : α → Run σ β} {v : ν} {Q : Except Error β → ν → Prop}
    (hx : Ends R x v fun r w => (∃ a, r = .ok a ∧ Ends R (f a) w Q) ∨ ∃ e, r = .error e ∧ Q (.error e) w) :
    Ends R (x >>= f) v Q := by
  intro s hs
  obtain ⟨w, hw, ⟨a, ha, hf⟩ | ⟨e, he, hq⟩⟩ := hx s hs
  · rw [bind_of_ok (Prod.ext ha rfl : x s = (.ok a, (x s).2))]
    exact hf _ hw
  · rw [bind_of_error (Prod.ext he rfl : x s = (.error e, (x s).2))]
    exact ⟨w, hw, hq⟩

/-- a failure is handled from what the failing run shows -/
theorem Ends.tryCatch {x : Run σ α} {f : Error → Run σ α} {v : ν} {Q : Except Error α → ν → Prop}
    (hx : Ends R x v fun r w => (∃ a, r = .ok a ∧ Q (.ok a) w) ∨ ∃ e, r = .error e ∧ Ends R (f e) w Q) :
    Ends R (tryCatch x f) v Q := by
  intro s hs
  rw [tryCatch_apply]
  obtain ⟨w, hw, ⟨a, ha, hq⟩ | ⟨e, he, hf⟩⟩ := hx s hs
  · rw [show x s = (.ok a, (x s).2) from Prod.ext ha rfl]
    exact ⟨w, hw, hq⟩
  · rw [show x s = (.error e, (x s).2) from Prod.ext he rfl]
    exact hf _ hw

theorem Ends.map {x : Run σ α} {f : α → β} {v : ν} {Q : Except Error β → ν → Prop}
    (h : Ends R x v fun r w => Q (f <$> r) w) : Ends R (f <$> x) v Q := by
  intro s hs
  obtain ⟨w, hw, hq⟩ := h s hs
  rw [map_apply]
  rcases found : x s with ⟨_ | _, s'⟩
  · rw [found] at hw hq
    exact ⟨w, hw, hq⟩
  · rw [found] at hw hq
    exact ⟨w, hw, hq⟩

/-- what is shown does not depend on the value that is made of an answer -/
theorem Ends.then_pure {x : Run σ α} {f : α → β} {v : ν} {Q : ν → Prop} (h : Ends R x v fun _ w => Q w) :
    Ends R (x >>= fun a => pure (f a)) v fun _ w => Q w := by
  refine Ends.bind (Ends.mono h fun o w hw => ?_)
  cases o with
  | ok a => exact .inl ⟨a, rfl, ends_pure (f a) hw⟩
  | error e => exact .inr ⟨e, rfl, hw⟩

/-- the state that is left does not depend on the value that is made of an answer -/
theorem bind_pure_snd (x : Run σ α) (f : α → β) (s : σ) : ((x >>= fun a => pure (f a)) s).2 = (x s).2 := by
  rw [bind_apply]
  rcases x s with ⟨_ | _, _⟩ <;> rfl

theorem map_snd (f : α → β) (x : Run σ α) (s : σ) : ((f <$> x) s).2 = (x s).2 := by
  rw [← bind_pure_comp]
  exact bind_pure_snd x f s

/-- nor does whether a run ends well -/
theorem map_isOk (f : α → β) (x : Run σ α) (s : σ) : ((f <$> x) s).1.isOk = (x s).1.isOk := by
  rw [map_apply]
  rcases x s with ⟨_ | _, _⟩ <;> rfl

theorem Ends.map_answer {x : Run σ α} {f : α → β} {v : ν} {Q : ν → Prop} (h : Ends R x v fun _ w => Q w) :
    Ends R (f <$> x) v fun _ w => Q w := by
  rw [← bind_pure_comp]
  exact h.then_pure

/-- a relation between states and a part `u` of what they show, the rest of which stays the same -/
theorem Ends.widen {μ : Type} (embed : μ → ν) {x : Run σ α} {u : μ} {Q : Except Error α → ν → Prop}
    (h : Ends (fun s u => R s (embed u)) x u fun r w => Q r (embed w)) : Ends R x (embed u) Q := by
  intro s hs
  obtain ⟨w, hw, hq⟩ := h s hs
  exact ⟨embed w, hw, hq⟩

/-- the same run, seen in two ways -/
theorem Ends.through {μ : Type} {S : σ → μ → Prop} {x : Run σ α} {u : μ} {v : ν} {P : Except Error α → μ → Prop}
    {Q : Except Error α → ν → Prop} (h : Ends S x u P) (start : ∀ s, R s v → S s u)
    (stop : ∀ o u', P o u' → ∃ v', (∀ s, S s u' → R s v') ∧ Q o v') : Ends R x v Q := by
  intro s hs
  obtain ⟨u', hu, hp⟩ := h s (start s hs)
  obtain ⟨v', back, hq⟩ := stop _ u' hp
  exact ⟨v', back _ hu, hq⟩

/-! ## Rules for runs that cannot fail -/

theorem Yields.mono {x : Run σ α} {v : ν} {P Q : α → ν → Prop} (h : Yields R x v P) (hq : ∀ a w, P a w → Q a w) :
    Yields R x v Q :=
  Ends.mono h fun _ w ⟨a, ha, hp⟩ => ⟨a, ha, hq a w hp⟩

theorem yields_pure (a : α) {v : ν} {P : α → ν → Prop} (h : P a v) : Yields R (pure a) v P :=
  ends_pure a ⟨a, rfl, h⟩

/-- what follows a run that cannot fail, whatever its own outcome -/
theorem Yields.ends {x : Run σ α} {f : α → Run σ β} {v : ν} {P : α → ν → Prop} {Q : Except Error β → ν → Prop}
    (hx : Yields R x v P) (hf : ∀ a w, P a w → Ends R (f a) w Q) : Ends R (x >>= f) v Q :=
  Ends.bind (Ends.mono hx fun _ w ⟨a, ha, hp⟩ => .inl ⟨a, ha, hf a w hp⟩)

/-- what follows a run whose answer and end are known -/
theorem Yields.next {x : Run σ α} {f : α → Run σ β} {v w : ν} {a : α} {Q : Except Error β → ν → Prop}
    (hx : Yields R x v fun b u => b = a ∧ u = w) (hf : Ends R (f a) w Q) : Ends R (x >>= f) v Q := by
  refine hx.ends fun b u h => ?_
  obtain ⟨rfl, rfl⟩ := h
  exact hf

/-- what follows a run that answers nothing and whose end is known -/
theorem Yields.step {x : Run σ Unit} {f : Unit → Run σ β} {v w : ν} {Q : Except Error β → ν → Prop}
    (hx : Yields R x v fun _ u => u = w) (hf : Ends R (f ()) w Q) : Ends R (x >>= f) v Q := by
  refine hx.ends fun _ u h => ?_
  obtain rfl := h
  exact hf

theorem Yields.bind {x : Run σ α} {f : α → Run σ β} {v : ν} {P : α → ν → Prop} {Q : β → ν → Prop}
    (hx : Yields R x v P) (hf : ∀ a w, P a w → Yields R (f a) w Q) : Yields R (x >>= f) v Q :=
  Yields.ends hx hf

theorem Yields.widen {μ : Type} (embed : μ → ν) {x : Run σ α} {u : μ} {P : α → ν → Prop}
    (h : Yields (fun s u => R s (embed u)) x u fun a w => P a (embed w)) : Yields R x (embed u) P :=
  Ends.widen embed h

theorem Yields.through {μ : Type} {S : σ → μ → Prop} {x : Run σ α} {u : μ} {v : ν} {P : α → μ → Prop} {Q : α → ν → Prop}
    (h : Yields S x u P) (start : ∀ s, R s v → S s u)
    (stop : ∀ a u', P a u' → ∃ v', (∀ s, S s u' → R s v') ∧ Q a v') : Yields R x v Q := by
  refine Ends.through h start fun o u' ended => ?_
  obtain ⟨a, rfl, hp⟩ := ended
  obtain ⟨v', back, hq⟩ := stop a u' hp
  exact ⟨v', back, a, rfl, hq⟩

/-- what is shown may stand behind something else -/
theorem yields_behind {μ : Type} {S : ν → μ → Prop} {x : Run σ α} {u : μ} {Q : α → μ → Prop}
    (h : ∀ v, S v u → Yields R x v fun a w => ∃ u', S w u' ∧ Q a u') :
    Yields (fun s u => ∃ v, R s v ∧ S v u) x u Q := by
  intro s hs
  obtain ⟨v, hv, behind⟩ := hs
  obtain ⟨w, hw, a, ha, u', behind', hq⟩ := h v behind s hv
  exact ⟨u', ⟨w, hw, behind'⟩, a, ha, hq⟩

/-- what cannot fail need not be handled -/
theorem Yields.tryCatch {x : Run σ α} {f : Error → Run σ α} {v : ν} {P : α → ν → Prop} (h : Yields R x v P) :
    Yields R (tryCatch x f) v P :=
  Ends.tryCatch (Ends.mono h fun _ _ ⟨a, ha, hp⟩ => .inl ⟨a, ha, a, rfl, hp⟩)

/-- an invariant may be added to what is known of states, if the run keeps it -/
theorem Yields.keep {x : Run σ α} {v : ν} {Inv : ν → Prop} {P Q : α → ν → Prop} (h : Yields R x v P)
    (kept : Inv v → ∀ a w, P a w → Inv w ∧ Q a w) : Yields (fun s v => R s v ∧ Inv v) x v Q := by
  intro s hs
  obtain ⟨w, hw, a, ha, hp⟩ := h s hs.1
  obtain ⟨inv, hq⟩ := kept hs.2 a w hp
  exact ⟨w, ⟨hw, inv⟩, a, ha, hq⟩

theorem Yields.keep_next {x : Run σ α} {v w : ν} {a : α} {Inv : ν → Prop} {Q : α → ν → Prop}
    (h : Yields R x v fun b u => b = a ∧ u = w) (kept : Inv v → Inv w ∧ Q a w) :
    Yields (fun s v => R s v ∧ Inv v) x v Q := by
  refine h.keep fun inv b u hu => ?_
  obtain ⟨rfl, rfl⟩ := hu
  exact kept inv

theorem Yields.keep_step {x : Run σ Unit} {v w : ν} {Inv : ν → Prop} {Q : Unit → ν → Prop}
    (h : Yields R x v fun _ u => u = w) (kept : Inv v → Inv w ∧ Q () w) :
    Yields (fun s v => R s v ∧ Inv v) x v Q := by
  refine h.keep fun inv _ u hu => ?_
  obtain rfl := hu
  exact kept inv

theorem Yields.map {x : Run σ α} {f : α → β} {v : ν} {Q : β → ν → Prop} (hx : Yields R x v fun a w => Q (f a) w) :
    Yields R (f <$> x) v Q := by
  intro s hs
  obtain ⟨w, hw, a, ha, hq⟩ := hx s hs
  rw [map_apply, show x s = (.ok a, (x s).2) from Prod.ext ha rfl]
  exact ⟨w, hw, f a, rfl, hq⟩

/-- runs one after another that all keep the same -/
theorem Yields.mapM {f : α → Run σ β} {g : α → β} {Kept : ν → Prop} (l : List α)
    (each : ∀ a ∈ l, ∀ v, Kept v → Yields R (f a) v fun b w => b = g a ∧ Kept w) {v : ν} (h : Kept v) :
    Yields R (l.mapM f) v fun bs w => bs = l.map g ∧ Kept w := by
  induction l generalizing v with
  | nil => exact yields_pure [] ⟨rfl, h⟩
  | cons a l ih =>
    rw [List.mapM_cons]
    refine (each a List.mem_cons_self v h).bind ?_
    intro _ w e
    obtain ⟨rfl, hw⟩ := e
    refine (ih (fun c hc => each c (List.mem_cons_of_mem a hc)) hw).bind ?_
    intro _ u e
    obtain ⟨rfl, hu⟩ := e
    exact yields_pure _ ⟨rfl, hu⟩

/-- the value and the end state of a run that cannot fail -/
theorem Yields.run {x : Run σ α} {v : ν} {P : α → ν → Prop} (h : Yields R x v P) {s : σ} (hs : R s v) :
    ∃ a s' w, x s = (.ok a, s') ∧ R s' w ∧ P a w := by
  obtain ⟨w, hw, a, ha, hp⟩ := h s hs
  exact ⟨a, (x s).2, w, Prod.ext ha rfl, hw, hp⟩

/-! ## Rules for calls that may fail without effect -/

theorem Tries.mono {x : Run σ α} {v : ν} {may : Prop} {P Q : α → ν → Prop} (h : Tries R x v may P)
    (hq : ∀ a w, P a w → Q a w) : Tries R x v may Q :=
  Ends.mono h fun _ w hw => hw.imp (fun ⟨a, ha, hp⟩ => ⟨a, ha, hq a w hp⟩) id

theorem Tries.weaken {x : Run σ α} {v : ν} {may may' : Prop} {P : α → ν → Prop} (h : Tries R x v may P)
    (hm : may → may') : Tries R x v may' P :=
  Ends.mono h fun _ _ hw => hw.imp id fun ⟨failing, rest⟩ => ⟨hm failing, rest⟩

theorem Yields.tries {x : Run σ α} {v : ν} {may : Prop} {P : α → ν → Prop} (h : Yields R x v P) : Tries R x v may P :=
  Ends.mono h fun _ _ hw => .inl hw

theorem Tries.yields {x : Run σ α} {v : ν} {may : Prop} {P : α → ν → Prop} (h : Tries R x v may P) (hm : ¬ may) :
    Yields R x v P :=
  Ends.mono h fun _ _ hw => hw.resolve_right fun hf => hm hf.1

/-- a call that is made once another has let it through -/
theorem Tries.after {x : Run σ Unit} {y : Run σ α} {v : ν} {may : Prop} {P : α → ν → Prop}
    (hx : Tries R x v may fun _ w => w = v) (hy : Tries R y v may P) : Tries R (x >>= fun _ => y) v may P := by
  refine Ends.bind (Ends.mono hx fun o w hw => ?_)
  rcases hw with ⟨_, rfl, rfl⟩ | ⟨hm, ⟨e, rfl⟩, rfl⟩
  · exact .inl ⟨(), rfl, hy⟩
  · exact .inr ⟨e, rfl, .inr ⟨hm, ⟨e, rfl⟩, rfl⟩⟩

theorem Tries.map {x : Run σ α} {f : α → β} {v : ν} {may : Prop} {Q : β → ν → Prop}
    (h : Tries R x v may fun a w => Q (f a) w) : Tries R (f <$> x) v may Q := by
  refine Ends.map (Ends.mono h fun o w hw => ?_)
  rcases hw with ⟨a, rfl, hq⟩ | ⟨hm, ⟨e, rfl⟩, rfl⟩
  · exact .inl ⟨f a, rfl, hq⟩
  · exact .inr ⟨hm, ⟨e, rfl⟩, rfl⟩

theorem Tries.then_pure {x : Run σ α} {b : β} {v : ν} {may : Prop} {Q : β → ν → Prop}
    (h : Tries R x v may fun _ w => Q b w) : Tries R (x >>= fun _ => pure b) v may Q := by
  rw [bind_pure_comp]
  exact h.map

theorem Tries.widen {μ : Type} (embed : μ → ν) {x : Run σ α} {u : μ} {may : Prop} {P : α → ν → Prop}
    (h : Tries (fun s u => R s (embed u)) x u may fun a w => P a (embed w)) : Tries R x (embed u) may P :=
  Ends.widen embed (Ends.mono h fun _ _ hw => hw.imp id fun ⟨hm, he, hu⟩ => ⟨hm, he, congrArg embed hu⟩)

/-! ## Rules for runs that may stop halfway -/

section Stops

variable {x : Run σ α} {f : α → Run σ β} {v w : ν} {may : Prop} {P P' : α → ν → Prop} {Q : β → ν → Prop} {E E' : ν → Prop}

theorem Stops.mono (h : Stops R x v may P E) (hp : ∀ a w, P a w → P' a w) (he : ∀ w, E w → E' w) :
    Stops R x v may P' E' :=
  Ends.mono h fun _ w hw =>
    hw.imp (fun ⟨a, ha, ho⟩ => ⟨a, ha, hp a w ho⟩) fun ⟨hm, failed, ho⟩ => ⟨hm, failed, he w ho⟩

theorem stops_pure (a : α) (h : P a v) : Stops R (pure a) v may P E := ends_pure a (.inl ⟨a, rfl, h⟩)

/-- where the first run stops, so do both -/
theorem Stops.bind (hx : Stops R x v may P E) (hf : ∀ a w, P a w → Stops R (f a) w may Q E')
    (he : ∀ w, E w → E' w) : Stops R (x >>= f) v may Q E' := by
  refine Ends.bind (Ends.mono hx fun o w h => ?_)
  rcases h with ⟨a, rfl, ho⟩ | ⟨hm, ⟨e, rfl⟩, ho⟩
  · exact .inl ⟨a, rfl, hf a w ho⟩
  · exact .inr ⟨e, rfl, .inr ⟨hm, ⟨e, rfl⟩, he w ho⟩⟩

/-- what follows a run that cannot fail -/
theorem Yields.stops (hx : Yields R x v P) (hf : ∀ a w, P a w → Stops R (f a) w may Q E) :
    Stops R (x >>= f) v may Q E :=
  hx.ends hf

/-- what follows a call that may fail without effect -/
theorem Tries.stops (hx : Tries R x v may P) (hf : ∀ a w, P a w → Stops R (f a) w may Q E) (he : E v) :
    Stops R (x >>= f) v may Q E :=
  Stops.bind (E := (· = v)) hx hf fun _ h => h ▸ he

/-- what follows a call that answers nothing and whose end is known -/
theorem Tries.step {x : Run σ Unit} {f : Unit → Run σ β} (hx : Tries R x v may fun _ u => u = w)
    (hf : Stops R (f ()) w may Q E) (he : E v) : Stops R (x >>= f) v may Q E := by
  refine hx.stops (fun _ u h => ?_) he
  subst h
  exact hf

/-- a last call that may fail without effect -/
theorem Tries.last (hx : Tries R x v may P) (he : E v) : Stops R x v may P E :=
  Stops.mono (E := (· = v)) hx (fun _ _ h => h) fun _ h => h ▸ he

theorem Stops.yields (h : Stops R x v may P E) (hm : ¬ may) : Yields R x v P :=
  Ends.mono h fun _ _ hw => hw.resolve_right fun failed => hm failed.1

end Stops

/-! ## Rules for runs that may break off -/

section Breaks

variable {R : Option κ → σ → ν → Prop} {x : Run σ α} {f : α → Run σ β} {q : κ} {may : Error → Prop} {v w : ν} {a : α}
  {P P' : α → ν → Prop} {Q : β → ν → Prop} {E E' : Option κ → Error → ν → Prop}

theorem Breaks.mono (h : Breaks R x v P E) (hp : ∀ a w, P a w → P' a w) (he : ∀ q e w, E q e w → E' q e w) :
    Breaks R x v P' E' := by
  intro s hs
  rcases h s hs with ⟨a, w, ran, hw, ho⟩ | ⟨e, q, w, ran, hw, ho⟩
  · exact .inl ⟨a, w, ran, hw, hp a w ho⟩
  · exact .inr ⟨e, q, w, ran, hw, he q e w ho⟩

theorem breaks_pure (h : P a v) : Breaks R (pure a) v P E := fun _ hs => .inl ⟨a, v, rfl, hs, h⟩

theorem breaks_throw {e : Error} (h : E none e v) : Breaks R (throw e : Run σ α) v P E :=
  fun _ hs => .inr ⟨e, none, v, rfl, hs, h⟩

/-- where the first run breaks off, so do both -/
theorem Breaks.bind (hx : Breaks R x v P E) (hf : ∀ a w, P a w → Breaks R (f a) w Q E')
    (he : ∀ q e w, E q e w → E' q e w) : Breaks R (x >>= f) v Q E' := by
  intro s hs
  rcases hx s hs with ⟨a, w, ran, hw, ho⟩ | ⟨e, q, w, ran, hw, ho⟩
  · rw [bind_of_ok (Prod.ext ran rfl : x s = (.ok a, (x s).2))]
    exact hf a w ho _ hw
  · rw [bind_of_error (Prod.ext ran rfl : x s = (.error e, (x s).2))]
    exact .inr ⟨e, q, w, rfl, hw, he q e w ho⟩

theorem Breaks.map {g : α → β} (h : Breaks R x v (fun a w => Q (g a) w) E) : Breaks R (g <$> x) v Q E := by
  rw [← bind_pure_comp]
  exact Breaks.bind h (fun _ _ hq => breaks_pure hq) fun _ _ _ he => he

/-- a handler that passes every failure on -/
theorem Breaks.passes {handler : Error → Run σ α} (h : Breaks R x v P E)
    (passes : ∀ q e w, E q e w → handler e = throw e) : Breaks R (tryCatch x handler) v P E := by
  intro s hs
  rw [tryCatch_apply]
  rcases h s hs with ⟨a, w, ran, hw, ho⟩ | ⟨e, q, w, ran, hw, ho⟩
  · rw [show x s = (.ok a, (x s).2) from Prod.ext ran rfl]
    exact .inl ⟨a, w, rfl, hw, ho⟩
  · rw [show x s = (.error e, (x s).2) from Prod.ext ran rfl]
    simp only [passes q e w ho]
    exact .inr ⟨e, q, w, rfl, hw, ho⟩

/-- what follows a run that cannot fail -/
theorem Yields.breaks (hx : Yields (R none) x v P) (hf : ∀ a w, P a w → Breaks R (f a) w Q E) :
    Breaks R (x >>= f) v Q E := by
  intro s hs
  obtain ⟨w, hw, a, ran, hp⟩ := hx s hs
  rw [bind_of_ok (Prod.ext ran rfl : x s = (.ok a, (x s).2))]
  exact hf a w hp _ hw

theorem Yields.next_breaks (hx : Yields (R none) x v fun b u => b = a ∧ u = w) (hf : Breaks R (f a) w Q E) :
    Breaks R (x >>= f) v Q E := by
  apply hx.breaks
  rintro _ _ ⟨rfl, rfl⟩
  exact hf

theorem Yields.step_breaks {x : Run σ Unit} {f : Unit → Run σ β} (hx : Yields (R none) x v fun _ u => u = w)
    (hf : Breaks R (f ()) w Q E) : Breaks R (x >>= f) v Q E := by
  apply hx.breaks
  rintro _ _ rfl
  exact hf

/-- what follows a call, if it is not refused -/
theorem Answers.next (h : Answers R x q may v a w) (hf : Breaks R (f a) w Q E) (he : ∀ e, may e → E (some q) e v) :
    Breaks R (x >>= f) v Q E := by
  refine Breaks.bind h ?_ ?_
  · rintro _ _ ⟨rfl, rfl⟩
    exact hf
  · rintro _ e _ ⟨rfl, refused, rfl⟩
    exact he e refused

theorem Answers.last (h : Answers R x q may v a w) (hp : P a w) (he : ∀ e, may e → E (some q) e v) :
    Breaks R x v P E := by
  refine Breaks.mono h ?_ ?_
  · rintro _ _ ⟨rfl, rfl⟩
    exact hp
  · rintro _ e _ ⟨rfl, refused, rfl⟩
    exact he e refused

/-- where no call is refused -/
theorem Breaks.ends (h : Breaks R x v P E) (calm : ∀ q s w, ¬ R (some q) s w) :
    Ends (R none) x v fun r w => (∃ a, r = .ok a ∧ P a w) ∨ ∃ e, r = .error e ∧ E none e w := by
  intro s hs
  rcases h s hs with ⟨a, w, ran, hw, ho⟩ | ⟨e, q, w, ran, hw, ho⟩
  · exact ⟨w, hw, .inl ⟨a, ran, ho⟩⟩
  · cases q with
    | none => exact ⟨w, hw, .inr ⟨e, ran, ho⟩⟩
    | some q => exact absurd hw (calm q _ w)

theorem Breaks.yields (h : Breaks R x v P E) (calm : ∀ q s w, ¬ R (some q) s w) (fails : ∀ e w, ¬ E none e w) :
    Yields (R none) x v P :=
  Ends.mono (h.ends calm) fun _ w hw => hw.resolve_right fun ⟨e, _, he⟩ => fails e w he

end Breaks

/-! ## Rules for runs that fail -/

theorem Ends.fails {x : Run σ α} {v : ν} {e : Error} {Q : ν → Prop} (h : Ends R x v fun r w => r = .error e ∧ Q w) :
    Fails R x v e := fun s hs => by
  obtain ⟨_, _, he, _⟩ := h s hs
  exact he

theorem fails_throw (e : Error) {v : ν} : Fails R (throw e : Run σ α) v e := fun _ _ => rfl

/-- nothing follows a run that fails -/
theorem Fails.bind {x : Run σ α} {f : α → Run σ β} {v : ν} {e : Error} (h : Fails R x v e) : Fails R (x >>= f) v e := by
  intro s hs
  rw [bind_of_error (Prod.ext (h s hs) rfl : x s = (.error e, (x s).2))]

theorem Fails.map {x : Run σ α} {f : α → β} {v : ν} {e : Error} (h : Fails R x v e) : Fails R (f <$> x) v e := by
  intro s hs
  rw [map_apply, show x s = (.error e, (x s).2) from Prod.ext (h s hs) rfl]

/-- a failure is passed on if its handler does so -/
theorem tryCatch_throw (e : Error) (f : Error → Run σ α) : tryCatch (throw e) f = f e := by
  funext s
  rw [tryCatch_apply, throw_apply]

theorem Yields.fails {x : Run σ α} {f : α → Run σ β} {v : ν} {P : α → ν → Prop} {e : Error} (hx : Yields R x v P)
    (hf : ∀ a w, P a w → Fails R (f a) w e) : Fails R (x >>= f) v e := by
  intro s hs
  obtain ⟨w, hw, a, ha, hp⟩ := hx s hs
  rw [bind_of_ok (Prod.ext ha rfl : x s = (.ok a, (x s).2))]
  exact hf a w hp _ hw

/-! ## Runs on a component of the state -/

/-- a run on a component of the state -/
def within (get : σ → τ) (set : τ → σ → σ) (x : Run τ α) : Run σ α := fun s => ((x (get s)).1, set (x (get s)).2 s)

/-- the component shows `u` while the whole shows `v`, and a component that shows `w` afterwards is in a whole that shows
`embed w` -/
theorem Ends.within {μ : Type} {get : σ → τ} {set : τ → σ → σ} {S : τ → μ → Prop} {x : Run τ α} {u : μ} {v : ν}
    {Q : Except Error α → μ → Prop} (embed : μ → ν) (h : Ends S x u Q) (hget : ∀ s, R s v → S (get s) u)
    (hset : ∀ s t w, R s v → S t w → R (set t s) (embed w)) :
    Ends R (within get set x) v fun o w => ∃ u', Q o u' ∧ w = embed u' := by
  intro s hs
  obtain ⟨w, hw, hq⟩ := h (get s) (hget s hs)
  exact ⟨embed w, hset s _ w hs hw, w, hq, rfl⟩

theorem Tries.within {get : σ → τ} {set : τ → σ → σ} {S : τ → ν → Prop} {x : Run τ α} {v : ν} {may : Prop}
    {P : α → ν → Prop} (h : Tries S x v may P) (hget : ∀ s v, R s v → S (get s) v)
    (hset : ∀ s t v w, R s v → S t w → R (set t s) w) : Tries R (within get set x) v may P := by
  refine Ends.mono (Ends.within id h (hget · v) fun s t w => hset s t v w) fun o w hw => ?_
  obtain ⟨u, ended, rfl⟩ := hw
  exact ended

end RowFiles.Run
