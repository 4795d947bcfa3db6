/-
Programs that stop at every call, and pools of them that take turns.

`Steps σ α` is a program cut into its calls: what runs in a `Run σ` in one go stops, lifted, after each of its calls, and
others may act before the next. A pool runs such programs in turns, in any order and at any times.

`Steps.Safe` says of one program what it promises and what it needs: whatever the others do within `rely`, each of its acts
stays within `guar` and keeps what `R` holds of the state, and its outcome satisfies `post`. `Pool.run_sound`: if no act
that one program promises is one that another cannot bear, all programs of a pool are safe together, whoever's turn it is.
-/
import Mathlib.Logic.Function.Basic
import RowFiles.Proofs.Runs

namespace RowFiles

/-- a program that stops after each act; what comes next may depend on the state that the act found -/
inductive Steps (σ α : Type) where
  | done (outcome : Except Error α)
  | act (change : σ → σ) (next : σ → Steps σ α)

namespace Steps

variable {σ ν α β : Type}

/-- whether a program has come to its end -/
def isDone : Steps σ α → Bool
  | .done _ => true
  | .act _ _ => false

/-- goes on after a program that ends well -/
def bind (f : α → Steps σ β) : Steps σ α → Steps σ β
  | .done (.ok a) => f a
  | .done (.error e) => .done (.error e)
  | .act change next => .act change fun s => (next s).bind f

/-- goes on after a program that fails -/
def handle (f : Error → Steps σ α) : Steps σ α → Steps σ α
  | .done (.ok a) => .done (.ok a)
  | .done (.error e) => f e
  | .act change next => .act change fun s => (next s).handle f

instance : Monad (Steps σ) where
  pure a := .done (.ok a)
  bind x f := x.bind f

theorem bind_pure_steps (x : Steps σ α) : x.bind (fun a => .done (.ok a)) = x := by
  induction x with
  | done o => cases o <;> rfl
  | act change next ih => exact congrArg (Steps.act change) (funext ih)

theorem bind_assoc_steps {γ : Type} (x : Steps σ α) (f : α → Steps σ β) (g : β → Steps σ γ) :
    (x.bind f).bind g = x.bind fun a => (f a).bind g := by
  induction x with
  | done o => cases o <;> rfl
  | act change next ih => exact congrArg (Steps.act change) (funext ih)

instance : LawfulMonad (Steps σ) := LawfulMonad.mk' _ bind_pure_steps (fun _ _ => rfl) bind_assoc_steps

instance : MonadExceptOf Error (Steps σ) where
  throw e := .done (.error e)
  tryCatch x f := x.handle f

/-- a call as a single act -/
instance : MonadLift (Run σ) (Steps σ) where
  monadLift x := .act (fun s => (x s).2) fun s => .done (x s).1

/-! ## What a program promises -/

/-- Others change what is shown within `rely` before each act and at the end. -/
def Safe (R : σ → ν → Prop) (rely guar : ν → ν → Prop) (post : Except Error α → ν → Prop) : Steps σ α → ν → Prop
  | .done o, v => ∀ w, rely v w → post o w
  | .act change next, v =>
    ∀ v', rely v v' → ∀ s, R s v' → ∃ w, R (change s) w ∧ guar v' w ∧ (next s).Safe R rely guar post w

section

variable {R : σ → ν → Prop} {rely guar : ν → ν → Prop} {post : Except Error α → ν → Prop}

/-- others may act first -/
theorem Safe.after (trans : ∀ u v w, rely u v → rely v w → rely u w) {x : Steps σ α} {v w : ν}
    (h : x.Safe R rely guar post v) (hw : rely v w) : x.Safe R rely guar post w := by
  cases x with
  | done o => exact fun u hu => h u (trans v w u hw hu)
  | act change next => exact fun u hu => h u (trans v w u hw hu)

theorem Safe.mono {post' : Except Error α → ν → Prop} {x : Steps σ α} {v : ν} (h : x.Safe R rely guar post v)
    (hp : ∀ o w, post o w → post' o w) : x.Safe R rely guar post' v := by
  induction x generalizing v with
  | done o => exact fun w hw => hp o w (h w hw)
  | act change next ih =>
    intro v' hv s hs
    obtain ⟨w, hw, promised, safe⟩ := h v' hv s hs
    exact ⟨w, hw, promised, ih s safe⟩

theorem safe_pure {a : α} {v : ν} (h : ∀ w, rely v w → post (.ok a) w) : Safe R rely guar post (pure a) v := h

/-- a program whose first act is a call -/
theorem safe_call {x : Run σ β} {f : β → Steps σ α} {v : ν}
    (h : ∀ v', rely v v' → Run.Yields R x v' fun b w => guar v' w ∧ (f b).Safe R rely guar post w) :
    Safe R rely guar post (liftM x >>= f) v := by
  intro v' hv s hs
  obtain ⟨w, hw, b, hb, promised, safe⟩ := h v' hv s hs
  refine ⟨w, hw, promised, ?_⟩
  change ((Steps.done (x s).1).bind f).Safe R rely guar post w
  rw [hb]
  exact safe

/-- a program that is a single call -/
theorem safe_lift {x : Run σ α} {v : ν}
    (h : ∀ v', rely v v' → Run.Yields R x v' fun a w => guar v' w ∧ ∀ w', rely w w' → post (.ok a) w') :
    Safe R rely guar post (liftM x : Steps σ α) v := by
  intro v' hv s hs
  obtain ⟨w, hw, a, ha, promised, holds⟩ := h v' hv s hs
  refine ⟨w, hw, promised, ?_⟩
  change (Steps.done (x s).1).Safe R rely guar post w
  rw [ha]
  exact holds

/-- one program after another that ends well -/
theorem Safe.bind (refl : ∀ v, rely v v) {x : Steps σ β} {f : β → Steps σ α} {v : ν} {mid : β → ν → Prop}
    (hx : x.Safe R rely guar (fun o w => ∃ b, o = .ok b ∧ mid b w) v)
    (hf : ∀ b w, mid b w → (f b).Safe R rely guar post w) : Safe R rely guar post (x >>= f) v := by
  change (x.bind f).Safe R rely guar post v
  induction x generalizing v with
  | done o =>
    obtain ⟨b, rfl, hb⟩ := hx v (refl v)
    exact hf b v hb
  | act change next ih =>
    intro v' hv s hs
    obtain ⟨w, hw, promised, safe⟩ := hx v' hv s hs
    exact ⟨w, hw, promised, ih s safe⟩

end

end Steps

/-! ## Pools -/

/-- programs under way, and the state they share -/
structure Pool (σ ι α : Type) where
  programs : ι → Steps σ α
  state : σ

namespace Pool

variable {σ ν ι α θ : Type}

/-- one act of a program -/
def step [DecidableEq ι] (p : Pool σ ι α) (i : ι) : Pool σ ι α :=
  match p.programs i with
  | .done _ => p
  | .act change next => ⟨Function.update p.programs i (next p.state), change p.state⟩

/-- turns of the programs, each preceded by a change `tick d` that no program makes -/
def run [DecidableEq ι] (tick : θ → σ → σ) : List (θ × ι) → Pool σ ι α → Pool σ ι α
  | [], p => p
  | (d, i) :: turns, p => run tick turns (step { p with state := tick d p.state } i)

/-- every program has come to its end -/
def Ended (p : Pool σ ι α) : Prop := ∀ i, (p.programs i).isDone = true

/-- the state shows something in which every program is safe -/
def Sound (R : σ → ν → Prop) (rely guar : ι → ν → ν → Prop) (post : ι → Except Error α → ν → Prop)
    (p : Pool σ ι α) : Prop :=
  ∃ v, R p.state v ∧ ∀ i, (p.programs i).Safe R (rely i) (guar i) (post i) v

variable {R : σ → ν → Prop} {rely guar : ι → ν → ν → Prop} {post : ι → Except Error α → ν → Prop}

theorem step_sound [DecidableEq ι] (refl : ∀ i v, rely i v v) (trans : ∀ i u v w, rely i u v → rely i v w → rely i u w)
    (compatible : ∀ i j v w, i ≠ j → guar i v w → rely j v w) {p : Pool σ ι α} (h : p.Sound R rely guar post) (i : ι) :
    (p.step i).Sound R rely guar post := by
  obtain ⟨v, hv, safe⟩ := h
  rw [step]
  cases e : p.programs i with
  | done o => exact ⟨v, hv, safe⟩
  | act change next =>
    have mine := safe i
    rw [e] at mine
    obtain ⟨w, hw, promised, later⟩ := mine v (refl i v) p.state hv
    refine ⟨w, hw, fun j => ?_⟩
    by_cases hj : j = i
    · subst hj
      simp only [Function.update_self]
      exact later
    · simp only [Function.update_of_ne hj]
      exact (safe j).after (trans j) (compatible i j v w (Ne.symm hj) promised)

/-- **Programs that bear each other's acts are safe together**, whoever's turn it is. -/
theorem run_sound [DecidableEq ι] {tick : θ → σ → σ} (refl : ∀ i v, rely i v v)
    (trans : ∀ i u v w, rely i u v → rely i v w → rely i u w)
    (compatible : ∀ i j v w, i ≠ j → guar i v w → rely j v w)
    (ticks : ∀ d s v, R s v → ∃ w, R (tick d s) w ∧ ∀ i, rely i v w) (turns : List (θ × ι)) {p : Pool σ ι α}
    (h : p.Sound R rely guar post) : (run tick turns p).Sound R rely guar post := by
  induction turns generalizing p with
  | nil => exact h
  | cons turn turns ih =>
    obtain ⟨v, hv, safe⟩ := h
    obtain ⟨w, hw, borne⟩ := ticks turn.1 p.state v hv
    refine ih (step_sound refl trans compatible ⟨w, hw, fun i => ?_⟩ turn.2)
    exact (safe i).after (trans i) (borne i)

/-- once all programs of a sound pool have ended, each outcome is as promised -/
theorem Sound.outcomes (refl : ∀ i v, rely i v v) {p : Pool σ ι α} (h : p.Sound R rely guar post) (ended : p.Ended) :
    ∃ v, R p.state v ∧ ∀ i, ∃ o, p.programs i = .done o ∧ post i o v := by
  obtain ⟨v, hv, safe⟩ := h
  refine ⟨v, hv, fun i => ?_⟩
  have mine := safe i
  have done := ended i
  cases e : p.programs i with
  | done o =>
    rw [e] at mine
    exact ⟨o, rfl, mine v (refl i v)⟩
  | act change next =>
    rw [e] at done
    cases done

end Pool

end RowFiles
