/-
Runs that may fail. A failure keeps the state that was reached before it: nothing is undone. What a layer remembers
between calls stands behind a `Part`, a part of the state with its own reading and writing.
-/
import RowFiles.Error

namespace RowFiles

/-! ## Parts of the state -/

/-- a part of the state that `m` runs in -/
structure Part (m : Type → Type) (σ : Type) where
  read : m σ
  write : σ → m Unit

namespace Part

variable {m : Type → Type} [Monad m] {σ τ : Type}

def modify (p : Part m σ) (f : σ → σ) : m Unit := do p.write (f (← p.read))

/-- a part of a part -/
def focus (p : Part m σ) (get : σ → τ) (set : τ → σ → σ) : Part m τ :=
  ⟨get <$> p.read, fun t => p.modify (set t)⟩

end Part

/-! ## Runs -/

/-- a run in a state -/
abbrev Run (σ : Type) := ExceptT Error (StateM σ)

namespace Run

variable {σ τ α β : Type}

/-- a component of the state as a part of it -/
def part (get : σ → τ) (set : τ → σ → σ) : Part (Run σ) τ :=
  ⟨fun s => (.ok (get s), s), fun t s => (.ok (), set t s)⟩

@[simp] theorem pure_apply (a : α) (s : σ) : (pure a : Run σ α) s = (.ok a, s) := rfl

theorem bind_apply (x : Run σ α) (f : α → Run σ β) (s : σ) :
    (x >>= f) s = match x s with
      | (.ok a, s) => f a s
      | (.error e, s) => (.error e, s) := by
  simp only [bind, ExceptT.bind, ExceptT.mk, ExceptT.bindCont, StateT.bind]
  rcases x s with ⟨_ | _, _⟩ <;> rfl

@[simp] theorem bind_of_ok {x : Run σ α} {f : α → Run σ β} {s s' : σ} {a : α} (h : x s = (.ok a, s')) :
    (x >>= f) s = f a s' := by rw [bind_apply, h]

@[simp] theorem bind_of_error {x : Run σ α} {f : α → Run σ β} {s s' : σ} {e : Error} (h : x s = (.error e, s')) :
    (x >>= f) s = (.error e, s') := by rw [bind_apply, h]

theorem map_apply (f : α → β) (x : Run σ α) (s : σ) :
    (f <$> x) s = match x s with
      | (.ok a, s) => (.ok (f a), s)
      | (.error e, s) => (.error e, s) := by
  simp only [Functor.map, ExceptT.map, ExceptT.mk, StateT.bind, bind]
  rcases x s with ⟨_ | _, _⟩ <;> rfl

@[simp] theorem throw_apply (e : Error) (s : σ) : (throw e : Run σ α) s = (.error e, s) := rfl

/-- the handler of a failure starts in the state that the failure left -/
theorem tryCatch_apply (x : Run σ α) (h : Error → Run σ α) (s : σ) :
    (tryCatch x h) s = match x s with
      | (.ok a, s) => (.ok a, s)
      | (.error e, s) => h e s := by
  simp only [tryCatch, tryCatchThe, MonadExceptOf.tryCatch, ExceptT.tryCatch, ExceptT.mk, StateT.bind, bind]
  rcases x s with ⟨_ | _, _⟩ <;> rfl

@[simp] theorem part_read (get : σ → τ) (set : τ → σ → σ) (s : σ) : (part get set).read s = (.ok (get s), s) := rfl

@[simp] theorem part_write (get : σ → τ) (set : τ → σ → σ) (t : τ) (s : σ) :
    (part get set).write t s = (.ok (), set t s) := rfl

@[simp] theorem part_modify (get : σ → τ) (set : τ → σ → σ) (f : τ → τ) (s : σ) :
    (part get set).modify f s = (.ok (), set (f (get s)) s) := rfl

end Run

end RowFiles
